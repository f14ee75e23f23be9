import Katana.Http.Parser

/-!
# Path patterns

A route pattern is a list of literal and parameter segments, built at compile
time from a literal such as `/users/{id}`.  A request path is split into its
non-empty segments, of which there may be at most sixteen, and compared with a
pattern segment by segment.
-/

namespace Katana
namespace Http

open Library

def MAX_ROUTE_SEGMENTS : ℕ := 16
def MAX_PATH_PARAMS : ℕ := 16

def SLASH : Byte := 47
def OPEN_BRACE : Byte := 123
def CLOSE_BRACE : Byte := 125

inductive SegmentKind where
  | literal | parameter
deriving Repr, DecidableEq

structure PathSegment where
  kind : SegmentKind
  value : List Byte
deriving Repr, DecidableEq

/-- The entries in use. -/
structure PathParams where
  entries : List (List Byte × List Byte) := []
deriving Repr, DecidableEq

def PathParams.add (params : PathParams) (name value : List Byte) : PathParams :=
  if params.entries.length < MAX_PATH_PARAMS then
    { entries := params.entries ++ [(name, value)] }
  else params

/-- `segments` and `paramNames` hold the entries in use. -/
structure PathPattern where
  segments : List PathSegment := []
  paramNames : List (List Byte) := []
  segmentCount : ℕ := 0
  paramCount : ℕ := 0
  literalCount : ℕ := 0
deriving Repr, DecidableEq

namespace PathPattern

def addParameter (pattern : PathPattern) (name : List Byte) : PathPattern :=
  { pattern with
    segments := pattern.segments ++ [{ kind := .parameter, value := name }]
    paramNames := pattern.paramNames ++ [name]
    segmentCount := pattern.segmentCount + 1
    paramCount := pattern.paramCount + 1 }

def addLiteral (pattern : PathPattern) (segment : List Byte) : PathPattern :=
  { pattern with
    segments := pattern.segments ++ [{ kind := .literal, value := segment }]
    segmentCount := pattern.segmentCount + 1
    literalCount := pattern.literalCount + 1 }

/-- One segment of the literal. -/
def addSegment (pattern : PathPattern) (segment : List Byte) : Except String PathPattern :=
  if segment.length = 0 then .error "empty path segment is not allowed"
  else if MAX_ROUTE_SEGMENTS ≤ pattern.segmentCount then .error "too many path segments"
  else if segment.head? = some OPEN_BRACE then
    if segment.getLast? ≠ some CLOSE_BRACE then
      .error "parameter segment must end with '\x7d'"
    else if segment.length ≤ 2 then .error "parameter name cannot be empty"
    else if MAX_PATH_PARAMS ≤ pattern.paramCount then .error "too many path parameters"
    else .ok (pattern.addParameter ((segment.drop 1).take (segment.length - 2)))
  else .ok (pattern.addLiteral segment)

/-- What is left of the literal, and the pattern so far. -/
structure LiteralState where
  rest : List Byte
  pattern : PathPattern

def literalPass (s : LiteralState) : Pass LiteralState (Except String PathPattern) :=
  if s.rest = [] then .done (.ok s.pattern)
  else
    match s.pattern.addSegment (s.rest.takeWhile (· ≠ SLASH)) with
    | .error message => .done (.error message)
    | .ok pattern =>
        .again { rest := (s.rest.dropWhile (· ≠ SLASH)).drop 1, pattern := pattern }

def fromLiteral (raw : List Byte) : Except String PathPattern :=
  if raw = [] then .error "route path cannot be empty"
  else if raw.head? ≠ some SLASH then .error "route path must start with '/'"
  else
    evalLoop literalPass (fun s => s.rest.length) (fun s => .ok s.pattern)
      { rest := raw.drop 1, pattern := {} }

structure SplitResult where
  parts : List (List Byte) := []
  overflow : Bool := false
deriving Repr, DecidableEq

structure SplitState where
  rest : List Byte
  parts : List (List Byte)

def splitPass (s : SplitState) : Pass SplitState SplitResult :=
  if s.rest = [] then .done { parts := s.parts }
  else
    let start := s.rest.dropWhile (· = SLASH)
    if start = [] then .done { parts := s.parts }
    else if MAX_ROUTE_SEGMENTS ≤ s.parts.length then
      .done { parts := s.parts, overflow := true }
    else
      .again {
        rest := start.dropWhile (· ≠ SLASH)
        parts := s.parts ++ [start.takeWhile (· ≠ SLASH)] }

def splitPath (path : List Byte) : SplitResult :=
  evalLoop splitPass (fun s => s.rest.length) (fun s => { parts := s.parts })
    { rest := path, parts := [] }

/-- The loop of `match_segments` over both lists of segments. -/
def matchLoop (paramNames : List (List Byte)) :
    List PathSegment → List (List Byte) → ℕ → PathParams → Bool × PathParams
  | segment :: segments, actual :: actuals, paramIndex, out =>
      if segment.kind = .literal then
        if segment.value ≠ actual then (false, out)
        else matchLoop paramNames segments actuals paramIndex out
      else if actual = [] then (false, out)
      else
        matchLoop paramNames segments actuals (paramIndex + 1)
          (out.add (paramNames.getD paramIndex []) actual)
  | _, _, _, out => (true, out)

def matchSegments (pattern : PathPattern) (parts : List (List Byte)) (out : PathParams) :
    Bool × PathParams :=
  if pattern.segmentCount = 0 ∧ parts.length = 0 then (true, out)
  else if parts.length ≠ pattern.segmentCount then (false, out)
  else matchLoop pattern.paramNames pattern.segments parts 0 out

def specificityScore (pattern : PathPattern) : ℤ :=
  (pattern.literalCount * 16 + (MAX_ROUTE_SEGMENTS - pattern.paramCount) : ℕ)

/-! ## What the pieces mean -/

def SegmentMatches (segment : PathSegment) (actual : List Byte) : Prop :=
  segment.kind = .literal → segment.value = actual

instance : DecidableRel SegmentMatches :=
  fun _ _ => inferInstanceAs (Decidable (_ → _))

/-- As many segments, with the literal ones as the pattern says. -/
def Matches (pattern : PathPattern) (parts : List (List Byte)) : Prop :=
  List.Forall₂ SegmentMatches pattern.segments parts

instance (pattern : PathPattern) (parts : List (List Byte)) : Decidable (pattern.Matches parts) :=
  inferInstanceAs (Decidable (List.Forall₂ _ _ _))

def literals (pattern : PathPattern) : ℕ :=
  pattern.segments.countP (·.kind = .literal)

def boundParameter (place : PathSegment × List Byte) : Option (List Byte × List Byte) :=
  if place.1.kind = .parameter then some (place.1.value, place.2) else none

/-- The parameters with the segments in their places. -/
def bindings (pattern : PathPattern) (parts : List (List Byte)) : List (List Byte × List Byte) :=
  (pattern.segments.zip parts).filterMap boundParameter

/-- The segments of a path, split on runs of slashes. -/
def pathSegments (path : List Byte) : List (List Byte) :=
  (path.splitOn SLASH).filter (· ≠ [])

/-- The counts and the names agree with the segments. -/
structure WellFormed (pattern : PathPattern) : Prop where
  names : pattern.paramNames =
    (pattern.segments.filter (·.kind = .parameter)).map (·.value)
  segmentCount : pattern.segmentCount = pattern.segments.length
  paramCount : pattern.paramCount = pattern.paramNames.length
  literalCount : pattern.literalCount = pattern.literals
  bounded : pattern.segmentCount ≤ MAX_ROUTE_SEGMENTS

/-! ## Patterns from literals -/

theorem wellFormed_empty : WellFormed {} := by
  constructor <;> simp [literals]

theorem WellFormed.addSegment {pattern next : PathPattern} {segment : List Byte}
    (h : pattern.WellFormed) (hadd : pattern.addSegment segment = .ok next) :
    next.WellFormed := by
  have hbounded : pattern.segmentCount < MAX_ROUTE_SEGMENTS := by
    by_contra hfull
    unfold PathPattern.addSegment at hadd
    have hle : MAX_ROUTE_SEGMENTS ≤ pattern.segmentCount := Nat.not_lt.mp hfull
    simp only [hle, if_true] at hadd
    split at hadd <;> cases hadd
  have hnext : next = pattern.addParameter ((segment.drop 1).take (segment.length - 2)) ∨
      next = pattern.addLiteral segment := by
    unfold PathPattern.addSegment at hadd
    split_ifs at hadd
    · left
      cases hadd
      rfl
    · right
      cases hadd
      rfl
  rcases hnext with rfl | rfl
  · constructor
    · simp [addParameter, h.names]
    · simp [addParameter, h.segmentCount]
    · simp [addParameter, h.paramCount]
    · simp [addParameter, h.literalCount, literals]
    · exact hbounded
  · constructor
    · simp [addLiteral, h.names]
    · simp [addLiteral, h.segmentCount]
    · simp [addLiteral, h.paramCount]
    · simp [addLiteral, h.literalCount, literals]
    · exact hbounded

theorem decreases_literalPass :
    Decreases literalPass (fun s : LiteralState => s.rest.length) := by
  intro s next hpass
  unfold literalPass at hpass
  split at hpass
  next => cases hpass
  next hrest =>
    split at hpass
    next => cases hpass
    next =>
      cases hpass
      have hdrop := List.length_dropWhile_le (· ≠ SLASH) s.rest
      have hpos := List.length_pos_iff.mpr hrest
      simp only [List.length_drop]
      omega

theorem fromLiteral_wellFormed {raw : List Byte} {pattern : PathPattern}
    (h : fromLiteral raw = .ok pattern) : pattern.WellFormed := by
  unfold fromLiteral at h
  split at h
  next => cases h
  next =>
    split at h
    next => cases h
    next =>
      have hends := evalLoop_endsWith decreases_literalPass (fun s => .ok s.pattern)
        { rest := raw.drop 1, pattern := {} }
      rw [h] at hends
      obtain ⟨last, hpasses, hdone⟩ := hends
      have hkeep : ∀ s next : LiteralState, s.pattern.WellFormed → literalPass s = .again next →
          next.pattern.WellFormed := by
        intro s next hs hpass
        unfold literalPass at hpass
        split at hpass
        next => cases hpass
        next =>
          split at hpass
          next => cases hpass
          next hadd =>
            cases hpass
            exact hs.addSegment hadd
      have hlast : last.pattern.WellFormed := hpasses.invariant hkeep wellFormed_empty
      unfold literalPass at hdone
      split at hdone
      next =>
        cases hdone
        exact hlast
      next => split at hdone <;> cases hdone

/-! ## Splitting -/

theorem pathSegments_slash (rest : List Byte) :
    pathSegments (SLASH :: rest) = pathSegments rest := by
  have hsplit := List.splitOn_append_cons_self (a := SLASH) [] rest
  simp only [List.nil_append] at hsplit
  simp [pathSegments, hsplit]

theorem pathSegments_nil : pathSegments [] = [] := by
  simp [pathSegments]

theorem pathSegments_segment {segment : List Byte} (hne : segment ≠ []) (hslash : SLASH ∉ segment) :
    pathSegments segment = [segment] := by
  simp [pathSegments, List.splitOn_eq_singleton hslash, hne]

theorem pathSegments_append {segment rest : List Byte} (hne : segment ≠ [])
    (hslash : SLASH ∉ segment) :
    pathSegments (segment ++ SLASH :: rest) = segment :: pathSegments rest := by
  simp [pathSegments, List.splitOn_append_cons_self_of_not_mem hslash, hne]

theorem pathSegments_dropWhile (path : List Byte) :
    pathSegments (path.dropWhile (· = SLASH)) = pathSegments path := by
  induction path with
  | nil => rfl
  | cons c path ih =>
      by_cases hc : c = SLASH
      · rw [hc, pathSegments_slash, ← ih]
        simp
      · simp [hc]

theorem pathSegments_takeWhile {path : List Byte} (hne : path ≠ [])
    (hhead : path.head? ≠ some SLASH) :
    pathSegments path =
      path.takeWhile (· ≠ SLASH) :: pathSegments (path.dropWhile (· ≠ SLASH)) := by
  have hsegment : path.takeWhile (· ≠ SLASH) ≠ [] := by
    cases path with
    | nil => exact absurd rfl hne
    | cons c rest =>
        have hc : c ≠ SLASH := fun hc => hhead (by rw [hc, List.head?_cons])
        simp [hc]
  have hslash : SLASH ∉ path.takeWhile (· ≠ SLASH) := by
    intro hmem
    have hfalse := List.mem_takeWhile_imp hmem
    simp at hfalse
  have hsplit := List.takeWhile_append_dropWhile (p := (· ≠ SLASH)) (l := path)
  cases htail : path.dropWhile (· ≠ SLASH) with
  | nil =>
      rw [htail, List.append_nil] at hsplit
      rw [pathSegments_nil, hsplit]
      exact pathSegments_segment hne (hsplit ▸ hslash)
  | cons c rest =>
      have hc : c = SLASH := by
        have hnot := List.head?_dropWhile_not (· ≠ SLASH) path
        rw [htail] at hnot
        simpa using hnot
      rw [htail, hc] at hsplit
      rw [hc, pathSegments_slash, ← pathSegments_append hsegment hslash, hsplit]

theorem decreases_splitPass : Decreases splitPass (fun s : SplitState => s.rest.length) := by
  intro s next hpass
  unfold splitPass at hpass
  dsimp only at hpass
  split_ifs at hpass with hrest hstart
  cases hpass
  have hskip := List.length_dropWhile_le (· = SLASH) s.rest
  cases htail : s.rest.dropWhile (· = SLASH) with
  | nil => exact absurd htail hstart
  | cons c rest =>
      have hhead := List.head?_dropWhile_not (· = SLASH) s.rest
      rw [htail] at hhead
      have hc : c ≠ SLASH := by simpa using hhead
      have hdrop := List.length_dropWhile_le (· ≠ SLASH) rest
      rw [htail, List.length_cons] at hskip
      simp only [ne_eq, hc, not_false_eq_true, decide_true, List.dropWhile_cons_of_pos]
      simp only [ne_eq] at hdrop
      omega

/-- The split of a list of segments that may be too long. -/
def splitOf (segments : List (List Byte)) : SplitResult :=
  { parts := segments.take MAX_ROUTE_SEGMENTS
    overflow := MAX_ROUTE_SEGMENTS < segments.length }

theorem splitPass_endsWith (s : SplitState) (hparts : s.parts.length ≤ MAX_ROUTE_SEGMENTS) :
    EndsWith splitPass s (splitOf (s.parts ++ pathSegments s.rest)) := by
  induction hlength : s.rest.length using Nat.strong_induction_on generalizing s with
  | _ n ih =>
      have hskip := pathSegments_dropWhile s.rest
      cases hstart : s.rest.dropWhile (· = SLASH) with
      | nil =>
          apply EndsWith.of_done
          rw [hstart, pathSegments_nil] at hskip
          have hsplit : splitOf (s.parts ++ pathSegments s.rest) = { parts := s.parts } := by
            rw [← hskip]
            simp [splitOf, List.take_of_length_le hparts, hparts]
          rw [hsplit]
          unfold splitPass
          simp [hstart]
      | cons c rest =>
          have hhead := List.head?_dropWhile_not (· = SLASH) s.rest
          rw [hstart] at hhead
          have hc : c ≠ SLASH := by simpa using hhead
          have hrest : s.rest ≠ [] := by
            intro hnil
            rw [hnil] at hstart
            cases hstart
          have hne : c :: rest ≠ [] := List.cons_ne_nil c rest
          have hsegments := pathSegments_takeWhile hne (by simpa using hc)
          rw [hstart, hsegments] at hskip
          by_cases hfull : MAX_ROUTE_SEGMENTS ≤ s.parts.length
          · apply EndsWith.of_done
            have hsplit : splitOf (s.parts ++ pathSegments s.rest) =
                { parts := s.parts, overflow := true } := by
              rw [← hskip]
              have hexact : s.parts.length = MAX_ROUTE_SEGMENTS := Nat.le_antisymm hparts hfull
              simp [splitOf, hexact]
            rw [hsplit]
            unfold splitPass
            simp [hstart, hrest, hfull]
          · have hpass : splitPass s = .again {
                rest := (c :: rest).dropWhile (· ≠ SLASH)
                parts := s.parts ++ [(c :: rest).takeWhile (· ≠ SLASH)] } := by
              unfold splitPass
              simp only [hstart, hrest, hfull, if_false]
              rfl
            have hlower := decreases_splitPass s _ hpass
            dsimp only at hlower
            have hparts' : (s.parts ++ [(c :: rest).takeWhile (· ≠ SLASH)]).length ≤
                MAX_ROUTE_SEGMENTS := by
              rw [List.length_append, List.length_singleton]
              omega
            have hmore := ih _ (hlength ▸ hlower)
              { rest := (c :: rest).dropWhile (· ≠ SLASH)
                parts := s.parts ++ [(c :: rest).takeWhile (· ≠ SLASH)] } hparts' rfl
            rw [← hskip]
            rw [List.append_assoc] at hmore
            exact .of_passes (.head hpass (.refl _)) hmore

theorem splitPath_eq (path : List Byte) : splitPath path = splitOf (pathSegments path) := by
  have hends := splitPass_endsWith { rest := path, parts := [] } (Nat.zero_le _)
  exact evalLoop_eq decreases_splitPass hends

theorem ne_nil_of_mem_pathSegments {path part : List Byte} (h : part ∈ pathSegments path) :
    part ≠ [] := by
  simpa using (List.mem_filter.mp h).2

/-! ## Matching -/

theorem matchLoop_false {paramNames : List (List Byte)} {segments : List PathSegment}
    {parts : List (List Byte)} {paramIndex : ℕ} {out : PathParams}
    (hlength : segments.length = parts.length) (hparts : ∀ part ∈ parts, part ≠ [])
    (h : ¬ List.Forall₂ SegmentMatches segments parts) :
    (matchLoop paramNames segments parts paramIndex out).1 = false := by
  induction segments generalizing parts paramIndex out with
  | nil =>
      cases parts with
      | nil => exact absurd .nil h
      | cons part parts => cases hlength
  | cons segment segments ih =>
      cases parts with
      | nil => cases hlength
      | cons part parts =>
          have hpart : part ≠ [] := hparts part List.mem_cons_self
          have hrest : ∀ p ∈ parts, p ≠ [] := fun p hp => hparts p (List.mem_cons_of_mem _ hp)
          simp only [List.length_cons, Nat.add_right_cancel_iff] at hlength
          rw [List.forall₂_cons] at h
          unfold matchLoop
          by_cases hkind : segment.kind = .literal
          · by_cases hvalue : segment.value = part
            · have hmatches : SegmentMatches segment part := fun _ => hvalue
              simp only [hkind, hvalue, ne_eq, not_true, if_true, if_false]
              exact ih hlength hrest fun htail => h ⟨hmatches, htail⟩
            · simp [hkind, hvalue]
          · have hmatches : SegmentMatches segment part := fun hliteral => absurd hliteral hkind
            simp only [hkind, hpart, if_false]
            exact ih hlength hrest fun htail => h ⟨hmatches, htail⟩

theorem matchLoop_true {paramNames : List (List Byte)} {segments : List PathSegment}
    {parts : List (List Byte)} {paramIndex : ℕ} {out : PathParams}
    (hparts : ∀ part ∈ parts, part ≠ []) (h : List.Forall₂ SegmentMatches segments parts)
    (hnames : paramNames.drop paramIndex =
      (segments.filter (·.kind = .parameter)).map (·.value))
    (hroom : out.entries.length + segments.length ≤ MAX_PATH_PARAMS) :
    matchLoop paramNames segments parts paramIndex out =
      (true, { entries := out.entries ++ (segments.zip parts).filterMap boundParameter }) := by
  induction h generalizing paramIndex out with
  | nil => simp [matchLoop]
  | @cons segment part segments parts hsegment _ ih =>
      have hpart : part ≠ [] := hparts part List.mem_cons_self
      have hrest : ∀ p ∈ parts, p ≠ [] := fun p hp => hparts p (List.mem_cons_of_mem _ hp)
      rw [List.length_cons] at hroom
      unfold matchLoop
      cases hkind : segment.kind with
      | literal =>
          simp only [hsegment hkind, ne_eq, not_true, if_true, if_false]
          rw [ih hrest (by simpa [hkind] using hnames) (by omega)]
          simp [boundParameter, hkind]
      | parameter =>
          have hcons : paramNames.drop paramIndex = segment.value ::
              (segments.filter (·.kind = .parameter)).map (·.value) := by
            simpa [hkind] using hnames
          have hname : paramNames.getD paramIndex [] = segment.value := by
            have hget := congrArg List.head? hcons
            rw [List.head?_drop, List.head?_cons] at hget
            simp [hget]
          have htail : paramNames.drop (paramIndex + 1) =
              (segments.filter (·.kind = .parameter)).map (·.value) := by
            rw [← List.tail_drop, hcons, List.tail_cons]
          have hadd : out.add segment.value part =
              { entries := out.entries ++ [(segment.value, part)] } := by
            unfold PathParams.add
            rw [if_pos (by omega)]
          simp only [reduceCtorEq, if_false, hpart, hname, hadd]
          rw [ih hrest htail (by simp only [List.length_append, List.length_singleton]; omega)]
          simp [boundParameter, hkind]

variable {pattern : PathPattern} {parts : List (List Byte)}

/-- On the segments of a path, `match_segments` decides whether the pattern matches. -/
theorem matchSegments_fst (hpattern : pattern.WellFormed) (hparts : ∀ part ∈ parts, part ≠ [])
    (out : PathParams) : (matchSegments pattern parts out).1 = true → pattern.Matches parts := by
  intro h
  by_contra hnot
  unfold matchSegments at h
  rw [hpattern.segmentCount] at h
  split at h
  next hempty =>
    apply hnot
    have hnil := List.length_eq_zero_iff.mp hempty.1
    have hnil' := List.length_eq_zero_iff.mp hempty.2
    unfold Matches
    rw [hnil, hnil']
    exact .nil
  next =>
    split at h
    next => cases h
    next hlength =>
      rw [matchLoop_false (not_not.mp hlength).symm hparts hnot] at h
      cases h

/-- A pattern that matches binds its parameters. -/
theorem matchSegments_of_matches (hpattern : pattern.WellFormed)
    (hparts : ∀ part ∈ parts, part ≠ []) (h : pattern.Matches parts) :
    matchSegments pattern parts {} = (true, { entries := pattern.bindings parts }) := by
  have hlength := h.length_eq
  have hbounded := hpattern.bounded
  unfold matchSegments bindings
  rw [hpattern.segmentCount] at hbounded ⊢
  split
  next hempty =>
    have hnil := List.length_eq_zero_iff.mp hempty.1
    simp [hnil]
  next =>
    rw [if_neg (by omega)]
    have hnames : pattern.paramNames.drop 0 =
        (pattern.segments.filter (·.kind = .parameter)).map (·.value) := by
      rw [List.drop_zero]
      exact hpattern.names
    have hroom : (({} : PathParams).entries.length + pattern.segments.length) ≤
        MAX_PATH_PARAMS := by
      simpa [MAX_PATH_PARAMS, MAX_ROUTE_SEGMENTS] using hbounded
    rw [matchLoop_true hparts h hnames hroom]
    simp

theorem segmentCount_eq (hpattern : pattern.WellFormed) (h : pattern.Matches parts) :
    pattern.segmentCount = parts.length := by
  rw [hpattern.segmentCount]
  exact h.length_eq

theorem length_eq_literals_add (segments : List PathSegment) :
    segments.length = segments.countP (·.kind = .literal) +
      (segments.filter (·.kind = .parameter)).length := by
  induction segments with
  | nil => rfl
  | cons segment segments ih =>
      cases hkind : segment.kind with
      | literal =>
          simp [hkind, ih]
          omega
      | parameter =>
          simp [hkind, ih]
          omega

/-- Among the patterns that match a path, the score grows with the literals. -/
theorem specificityScore_eq (hpattern : pattern.WellFormed) (h : pattern.Matches parts) :
    pattern.specificityScore = 17 * pattern.literals + 16 - parts.length := by
  have hlength := h.length_eq
  have hbounded := hpattern.bounded
  have hsplit := length_eq_literals_add pattern.segments
  have hnames : pattern.paramNames.length =
      (pattern.segments.filter (·.kind = .parameter)).length := by
    rw [hpattern.names, List.length_map]
  unfold specificityScore
  rw [hpattern.literalCount, hpattern.paramCount]
  rw [hpattern.segmentCount] at hbounded
  unfold literals MAX_ROUTE_SEGMENTS at *
  omega

end PathPattern

end Http
end Katana
