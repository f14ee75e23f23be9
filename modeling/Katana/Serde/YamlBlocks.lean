import Katana.Serde.YamlEmission

/-!
# The lines of a block

A block takes the lines that are not less indented than it is.  Those at its own
indentation are its items and members; of these the ones behind which the block does
not change its kind are kept.  What a child takes are lines that are deeper, which make
no difference to its parent.
-/

namespace Katana
namespace Serde

open Http (Byte bytesOf)

def isItem (ln : YamlLine) : Bool :=
  (dashItem ln.content).isSome

/-- The key of a line that is a member of its block. -/
def memberKey (ln : YamlLine) : Option (List Byte) :=
  if isItem ln then none else (keyAndValue ln.content).map Prod.fst

/-- The lines at the indentation of the block. -/
def blockLines (indent : ℕ) (lines : List YamlLine) : List YamlLine :=
  (lines.takeWhile (indent ≤ ·.indent)).filter (·.indent = indent)

def noItems (indent : ℕ) (lines : List YamlLine) : Bool :=
  (blockLines indent lines).all fun ln => !isItem ln

def noMembers (indent : ℕ) (lines : List YamlLine) : Bool :=
  (blockLines indent lines).all fun ln => (memberKey ln).isNone

/-- The keys of the members behind the last item. -/
def blockKeys (indent : ℕ) : List YamlLine → List (List Byte)
  | [] => []
  | ln :: lines =>
      if ln.indent < indent then []
      else if ln.indent = indent && noItems indent lines then
        (memberKey ln).toList ++ blockKeys indent lines
      else blockKeys indent lines

/-- What follows the value of a key, which is a block if nothing stands behind the colon. -/
def linesBehind (indent : ℕ) (val : List Byte) (lines : List YamlLine) : List YamlLine :=
  if (trimView val).isEmpty then lines.dropWhile (indent + 2 ≤ ·.indent) else lines

/-! ## Lines of children -/

/-- The second list is the first one without some lines at its front that are deeper. -/
def Below (indent : ℕ) (lines rest : List YamlLine) : Prop :=
  ∃ front, lines = front ++ rest ∧ ∀ ln ∈ front, indent < ln.indent

theorem Below.refl (indent : ℕ) (lines : List YamlLine) : Below indent lines lines :=
  ⟨[], rfl, List.forall_mem_nil _⟩

theorem Below.trans {indent : ℕ} {lines middle rest : List YamlLine}
    (h : Below indent lines middle) (h' : Below indent middle rest) : Below indent lines rest := by
  rcases h with ⟨front, rfl, hfront⟩
  rcases h' with ⟨back, rfl, hback⟩
  refine ⟨front ++ back, by simp, fun ln hln => ?_⟩
  rcases List.mem_append.mp hln with hin | hin
  · exact hfront ln hin
  · exact hback ln hin

theorem Below.length_le {indent : ℕ} {lines rest : List YamlLine} (h : Below indent lines rest) :
    rest.length ≤ lines.length := by
  rcases h with ⟨front, rfl, -⟩
  simp

section Deeper

variable {indent : ℕ} {lines rest : List YamlLine}

theorem blockLines_deeper {ln : YamlLine} (h : indent < ln.indent) (lines : List YamlLine) :
    blockLines indent (ln :: lines) = blockLines indent lines := by
  simp [blockLines, h.le, h.ne']

theorem blockLines_level {ln : YamlLine} (h : ln.indent = indent) (lines : List YamlLine) :
    blockLines indent (ln :: lines) = ln :: blockLines indent lines := by
  simp [blockLines, h]

theorem Below.blockLines_eq (h : Below indent lines rest) :
    blockLines indent rest = blockLines indent lines := by
  rcases h with ⟨front, rfl, hfront⟩
  induction front with
  | nil => rfl
  | cons ln front ih =>
      rw [List.cons_append, blockLines_deeper (hfront ln List.mem_cons_self)]
      exact ih fun next hnext => hfront next (List.mem_cons_of_mem ln hnext)

theorem Below.noItems_eq (h : Below indent lines rest) :
    noItems indent rest = noItems indent lines := by
  rw [noItems, h.blockLines_eq, noItems]

theorem Below.noMembers_eq (h : Below indent lines rest) :
    noMembers indent rest = noMembers indent lines := by
  rw [noMembers, h.blockLines_eq, noMembers]

theorem blockKeys_deeper {ln : YamlLine} (h : indent < ln.indent) (lines : List YamlLine) :
    blockKeys indent (ln :: lines) = blockKeys indent lines := by
  simp [blockKeys, h.ne', not_lt.mpr h.le]

theorem Below.blockKeys_eq (h : Below indent lines rest) :
    blockKeys indent rest = blockKeys indent lines := by
  rcases h with ⟨front, rfl, hfront⟩
  induction front with
  | nil => rfl
  | cons ln front ih =>
      rw [List.cons_append, blockKeys_deeper (hfront ln List.mem_cons_self)]
      exact ih fun next hnext => hfront next (List.mem_cons_of_mem ln hnext)

end Deeper

/-! ## What is read -/

section Values

variable {block : ℕ → YamlReader → YamlNode × YamlReader} {bound : ℕ}

end Values

end Serde
end Katana
