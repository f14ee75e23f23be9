import Katana.Library.Tokens
import Katana.Http.Parser
import Katana.Serde.Cursor

/-!
# Content negotiation

The middleware decides by `validate_content_type` and `validate_accept`, and the
generated handlers by `find_content_type` and `negotiate_response_type`.  Both
read the Accept header range by range, each in its own way.  They agree unless a
header has a range or a type on which the two readings differ and no range on
which both succeed.
-/

namespace Katana
namespace Http

open Library
open Serde (trimView isJsonWhitespace COMMA)

def SEMICOLON : Byte := 59

/-- The `mime_type` of each `content_type_info`. -/
abbrev MediaTypes := List (List Byte)

def Request.header (memory name : List Byte) (req : Request) : Option (List Byte) :=
  (req.headers.get memory name).map (·.read memory)

/-! ## The middleware -/

def extractMediaType (contentType : List Byte) : List Byte :=
  trim (· = SP) (contentType.takeWhile (· ≠ SEMICOLON))

def validateContentType (memory : List Byte) (req : Request) (acceptedTypes : MediaTypes) : Bool :=
  if acceptedTypes = [] then true
  else
    match req.header memory (bytesOf "Content-Type") with
    | none => false
    | some contentType =>
        acceptedTypes.any fun accepted => extractMediaType contentType = accepted

def acceptsPart (availableTypes : MediaTypes) (part : List Byte) : Bool :=
  let mediaType := extractMediaType part
  if mediaType = bytesOf "*/*" then true
  else if 2 ≤ mediaType.length && mediaType.drop (mediaType.length - 2) = bytesOf "/*" then
    availableTypes.any (mediaType.take (mediaType.length - 2)).isPrefixOf
  else availableTypes.any (mediaType = ·)

def validateAcceptPass (availableTypes : MediaTypes) (remaining : List Byte) :
    Pass (List Byte) Bool :=
  if remaining = [] then .done false
  else if acceptsPart availableTypes (remaining.takeWhile (· ≠ COMMA)) then .done true
  else
    match remaining.dropWhile (· ≠ COMMA) with
    | [] => .done false
    | _ :: rest => .again rest

def validateAccept (memory : List Byte) (req : Request) (availableTypes : MediaTypes) : Bool :=
  if availableTypes = [] then true
  else
    match req.header memory (bytesOf "Accept") with
    | none => true
    | some accept =>
        if accept = [] || accept = bytesOf "*/*" then true
        else evalLoop (validateAcceptPass availableTypes) List.length (fun _ => false) accept

/-! ## The handlers -/

def mediaTypeToken (value : List Byte) : List Byte :=
  trimView ((trimView value).takeWhile (· ≠ SEMICOLON))

/-- What the slow path returns for one part of the header; `front` is the first
of the types. -/
def servePart (front : List Byte) (produces : MediaTypes) (part : List Byte) :
    Option (List Byte) :=
  let token := trimView part
  if token = [] then none
  else
    let token := if SEMICOLON ∈ token then trimView (token.takeWhile (· ≠ SEMICOLON)) else token
    if token = bytesOf "*/*" then some front
    else if 2 < token.length && token.drop (token.length - 2) = bytesOf "/*" then
      produces.find? (token.take (token.length - 1)).isPrefixOf
    else produces.find? (· = token)

def negotiatePass (front : List Byte) (produces : MediaTypes) (remaining : List Byte) :
    Pass (List Byte) (Option (List Byte)) :=
  if remaining = [] then .done none
  else
    match servePart front produces (remaining.takeWhile (· ≠ COMMA)) with
    | some mimeType => .done (some mimeType)
    | none => .again (remaining.dropWhile (· ≠ COMMA)).tail

def negotiateResponseType (memory : List Byte) (req : Request) (produces : MediaTypes) :
    Option (List Byte) :=
  match produces with
  | [] => none
  | front :: others =>
      match (req.headers.getField .accept).map (·.read memory) with
      | none => some front
      | some accept =>
          if accept = [] || accept = bytesOf "*/*" then some front
          else if others = [] && accept = front then some front
          else if COMMA ∉ accept && SEMICOLON ∉ accept && accept ∈ front :: others then some accept
          else
            evalLoop (negotiatePass front (front :: others)) List.length (fun _ => none) accept

/-! ## The readings of a part -/

theorem trimView_eq (text : List Byte) : trimView text = trim isJsonWhitespace text := rfl

theorem mediaTypeToken_eq (text : List Byte) :
    mediaTypeToken text = trimView (text.takeWhile (· ≠ SEMICOLON)) := by
  apply trim_takeWhile
  intro c hc
  by_contra hmark
  have hsemicolon : c = SEMICOLON := by simpa using hmark
  rw [hsemicolon] at hc
  exact absurd hc (by decide)

/-- The handlers' reading is that of the middleware, trimmed of tabs and line
ends as well. -/
theorem mediaTypeToken_extractMediaType (text : List Byte) :
    mediaTypeToken text = trimView (extractMediaType text) := by
  rw [mediaTypeToken_eq]
  symm
  apply trim_trim
  intro c hc
  rw [of_decide_eq_true hc]
  decide

theorem token_eq (part : List Byte) :
    (if SEMICOLON ∈ trimView part then trimView ((trimView part).takeWhile (· ≠ SEMICOLON))
      else trimView part) = mediaTypeToken part := by
  split
  · rfl
  · next hmark =>
      have hwhole : (trimView part).takeWhile (· ≠ SEMICOLON) = trimView part := by
        rw [List.takeWhile_eq_self_iff]
        intro c hc
        simp only [ne_eq, decide_not, Bool.not_eq_true', decide_eq_false_iff_not]
        rintro rfl
        exact hmark hc
      rw [mediaTypeToken, hwhole]
      symm
      exact trim_trim (fun _ h => h) part

/-! ## What a range selects -/

theorem slashStar_length : (bytesOf "/*").length = 2 := by
  decide

theorem wildcard_iff (range : List Byte) :
    range.drop (range.length - 2) = bytesOf "/*" ↔ ∃ stem, range = stem ++ bytesOf "/*" := by
  rw [← slashStar_length, eq_comm, ← List.suffix_iff_eq_drop]
  constructor
  · rintro ⟨stem, hstem⟩
    exact ⟨stem, hstem.symm⟩
  · rintro ⟨stem, hstem⟩
    exact ⟨stem, hstem.symm⟩

/-- What a wildcard selects begins with the slash as well. -/
theorem take_slashStar (stem : List Byte) :
    (stem ++ bytesOf "/*").take ((stem ++ bytesOf "/*").length - 1) = stem ++ bytesOf "/" := by
  have hsplit : stem ++ bytesOf "/*" = (stem ++ bytesOf "/") ++ bytesOf "*" := by
    rw [List.append_assoc]
    congr 1
  rw [hsplit]
  apply List.take_left'
  simp [show (bytesOf "*").length = 1 by decide]

/-- The slow path returns what the first part that is served gives. -/
theorem negotiate_loop_eq (front : List Byte) (types : MediaTypes) (accept : List Byte) :
    evalLoop (negotiatePass front types) List.length (fun _ => none) accept =
      (pieces COMMA accept).findSome? (servePart front types) := by
  have hdec : Decreases (negotiatePass front types) List.length := by
    intro s next hpass
    unfold negotiatePass at hpass
    split_ifs at hpass with hempty
    split at hpass
    · cases hpass
    · cases hpass
      exact length_behind_lt COMMA hempty
  have hend : EndsWith (negotiatePass front types) accept
      (((pieces COMMA accept).findSome? fun part =>
        (servePart front types part).map some).getD none) := by
    apply endsWith_pieces
    · rfl
    · intro l result hne htest
      obtain ⟨mimeType, hserved, rfl⟩ := Option.map_eq_some_iff.mp htest
      rw [negotiatePass, if_neg hne, hserved]
    · intro l hne htest
      rw [negotiatePass, if_neg hne, Option.map_eq_none_iff.mp htest]
      exact .inl rfl
  have hmap : ((pieces COMMA accept).findSome? fun part => (servePart front types part).map some) =
      ((pieces COMMA accept).findSome? (servePart front types)).map some := by
    rw [List.map_findSome?]
    rfl
  rw [evalLoop_eq hdec hend, hmap]
  cases (pieces COMMA accept).findSome? (servePart front types) <;> rfl

section Agreement

variable {types : MediaTypes} {accept : List Byte}

def jsonRequest (accept : String) : Request :=
  { headers := (({} : HeadersMap).setKnown .accept (bytesOf accept)).setKnown .contentType
      (bytesOf "Application/JSON") }

end Agreement

end Http
end Katana
