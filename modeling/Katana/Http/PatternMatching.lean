import Katana.Http.Router

/-!
# Matching a pattern

`match` splits the path itself, with a case of its own for the root, and the router
splits the path once for all routes.  Both decide whether the segments of the path
are an instance of the segments of the literal, and on an instance both record the
parameters from which the segments can be put together again.
-/

namespace Katana
namespace Http

open Library

namespace PathPattern

/-- `path_pattern::match`. -/
def matchPath (pattern : PathPattern) (path : List Byte) (out : PathParams) :
    Bool × PathParams :=
  if pattern.segmentCount = 0 ∧ (path = [SLASH] ∨ path = []) then (true, out)
  else
    let split := splitPath path
    if split.overflow then (false, out)
    else if split.parts.length ≠ pattern.segmentCount then (false, out)
    else pattern.matchSegments split.parts out

/-- `split_path` and `match_segments`, as `dispatch_with_info` calls them. -/
def matchSplit (pattern : PathPattern) (path : List Byte) (out : PathParams) :
    Bool × PathParams :=
  let split := splitPath path
  if split.overflow then (false, out)
  else pattern.matchSegments split.parts out

/-- The segment that a segment of a literal stands for. -/
def segmentOf (segment : List Byte) : PathSegment :=
  if segment.head? = some OPEN_BRACE then
    { kind := .parameter, value := (segment.drop 1).take (segment.length - 2) }
  else { kind := .literal, value := segment }

/-- The segments with parameters put in. -/
def instantiate : List PathSegment → List (List Byte × List Byte) → List (List Byte)
  | [], _ => []
  | segment :: segments, params =>
      if segment.kind = .literal then segment.value :: instantiate segments params
      else
        match params with
        | [] => []
        | param :: params => param.2 :: instantiate segments params

/-! ## The literal -/

theorem addSegment_segments {pattern next : PathPattern} {segment : List Byte}
    (hadd : pattern.addSegment segment = .ok next) :
    segment ≠ [] ∧ next.segments = pattern.segments ++ [segmentOf segment] := by
  unfold addSegment at hadd
  split_ifs at hadd with hempty hfull hparam hclosed hname hcount
  · cases hadd
    refine ⟨by simpa using hempty, ?_⟩
    simp [addParameter, segmentOf, hparam]
  · cases hadd
    refine ⟨by simpa using hempty, ?_⟩
    simp [addLiteral, segmentOf, hparam]

/-- A pass takes one segment off the literal and puts it into the pattern. -/
theorem literalPass_segments {s next : LiteralState} (hpass : literalPass s = .again next) :
    next.pattern.segments ++ (pathSegments next.rest).map segmentOf =
      s.pattern.segments ++ (pathSegments s.rest).map segmentOf := by
  unfold literalPass at hpass
  split at hpass
  · cases hpass
  next hrest =>
    split at hpass
    · cases hpass
    next pattern hadd =>
      obtain ⟨hsegment, hsegments⟩ := addSegment_segments hadd
      have hhead : s.rest.head? ≠ some SLASH := by
        intro hslash
        apply hsegment
        cases htail : s.rest with
        | nil => rfl
        | cons c rest =>
            rw [htail, List.head?_cons, Option.some.injEq] at hslash
            simp [hslash]
      have hdrop : pathSegments ((s.rest.dropWhile (· ≠ SLASH)).drop 1) =
          pathSegments (s.rest.dropWhile (· ≠ SLASH)) := by
        cases htail : s.rest.dropWhile (· ≠ SLASH) with
        | nil => rfl
        | cons c rest =>
            have hnot := List.head?_dropWhile_not (· ≠ SLASH) s.rest
            rw [htail] at hnot
            have hc : c = SLASH := by simpa using hnot
            rw [hc, pathSegments_slash, List.drop_one, List.tail_cons]
      cases hpass
      dsimp only
      rw [hsegments, hdrop, pathSegments_takeWhile hrest hhead, List.map_cons,
        List.append_assoc]
      rfl

theorem fromLiteral_segments {raw : List Byte} {pattern : PathPattern}
    (h : fromLiteral raw = .ok pattern) :
    pattern.segments = (pathSegments raw).map segmentOf := by
  unfold fromLiteral at h
  split at h
  · cases h
  next hraw =>
    split at h
    · cases h
    next hslash =>
      have hends := evalLoop_endsWith decreases_literalPass (fun s => .ok s.pattern)
        { rest := raw.drop 1, pattern := {} }
      rw [h] at hends
      obtain ⟨last, hpasses, hdone⟩ := hends
      have hkeep : ∀ s next : LiteralState,
          s.pattern.segments ++ (pathSegments s.rest).map segmentOf =
            (pathSegments (raw.drop 1)).map segmentOf → literalPass s = .again next →
          next.pattern.segments ++ (pathSegments next.rest).map segmentOf =
            (pathSegments (raw.drop 1)).map segmentOf :=
        fun _ _ hs hpass => (literalPass_segments hpass).trans hs
      have hlast := hpasses.invariant hkeep (List.nil_append _)
      have hfirst : pathSegments (raw.drop 1) = pathSegments raw := by
        cases raw with
        | nil => rfl
        | cons c rest =>
            have hc : c = SLASH := by simpa using hslash
            rw [hc, pathSegments_slash, List.drop_one, List.tail_cons]
      rw [hfirst] at hlast
      unfold literalPass at hdone
      split at hdone
      next hrest =>
        cases hdone
        rw [hrest, pathSegments_nil, List.map_nil, List.append_nil] at hlast
        exact hlast
      · split at hdone <;> cases hdone

/-! ## Both ways to match -/

variable {pattern : PathPattern} {parts : List (List Byte)}

/-- Whatever has been recorded before, the loop goes through on an instance. -/
theorem matchLoop_fst {paramNames : List (List Byte)} {segments : List PathSegment}
    (hparts : ∀ part ∈ parts, part ≠ []) (h : List.Forall₂ SegmentMatches segments parts)
    (paramIndex : ℕ) (out : PathParams) :
    (matchLoop paramNames segments parts paramIndex out).1 = true := by
  induction h generalizing paramIndex out with
  | nil => rfl
  | @cons segment part segments parts hsegment _ ih =>
      have hpart : part ≠ [] := hparts part List.mem_cons_self
      have hrest : ∀ p ∈ parts, p ≠ [] := fun p hp => hparts p (List.mem_cons_of_mem _ hp)
      unfold matchLoop
      by_cases hkind : segment.kind = .literal
      · simp only [hkind, hsegment hkind, ne_eq, not_true, if_true, if_false]
        exact ih hrest paramIndex out
      · simp only [hkind, hpart, if_false]
        exact ih hrest _ _

theorem matchSegments_iff (hpattern : pattern.WellFormed) (hparts : ∀ part ∈ parts, part ≠ [])
    (out : PathParams) :
    (pattern.matchSegments parts out).1 = true ↔ pattern.Matches parts := by
  constructor
  · exact matchSegments_fst hpattern hparts out
  · intro h
    unfold matchSegments
    split
    · rfl
    · rw [if_neg (by simp [segmentCount_eq hpattern h])]
      exact matchLoop_fst hparts h 0 out

/-- More segments than a pattern may have are no instance of it. -/
theorem not_matches_of_overflow (hpattern : pattern.WellFormed) {path : List Byte}
    (hoverflow : (splitPath path).overflow = true) : ¬ pattern.Matches (pathSegments path) := by
  intro h
  rw [splitPath_eq] at hoverflow
  have hlong : MAX_ROUTE_SEGMENTS < (pathSegments path).length := by
    simpa [splitOf] using hoverflow
  have hbounded := hpattern.bounded
  rw [segmentCount_eq hpattern h] at hbounded
  omega

theorem splitPath_parts {path : List Byte} (hoverflow : (splitPath path).overflow = false) :
    (splitPath path).parts = pathSegments path := by
  rw [splitPath_eq] at hoverflow ⊢
  apply List.take_of_length_le
  simpa [splitOf] using hoverflow

/-- The special case of the root and the test of the counts change nothing. -/
theorem matchPath_eq_matchSplit (pattern : PathPattern) (path : List Byte) (out : PathParams) :
    pattern.matchPath path out = pattern.matchSplit path out := by
  unfold matchPath matchSplit
  split
  next hroot =>
    obtain ⟨hcount, hpath⟩ := hroot
    have hsegments : pathSegments path = [] := by
      rcases hpath with rfl | rfl
      · rw [pathSegments_slash, pathSegments_nil]
      · exact pathSegments_nil
    rw [splitPath_eq, hsegments]
    simp [splitOf, matchSegments, hcount]
  · dsimp only
    split
    · rfl
    · split
      next hcount =>
        unfold matchSegments
        rw [if_neg (by omega), if_pos hcount]
      · rfl

theorem matchSplit_iff (hpattern : pattern.WellFormed) (path : List Byte) (out : PathParams) :
    (pattern.matchSplit path out).1 = true ↔ pattern.Matches (pathSegments path) := by
  unfold matchSplit
  dsimp only
  split
  next hoverflow => simp [not_matches_of_overflow hpattern hoverflow]
  next hoverflow =>
    rw [splitPath_parts (Bool.eq_false_iff.mpr hoverflow)]
    exact matchSegments_iff hpattern (fun _ => ne_nil_of_mem_pathSegments) out

theorem matchSplit_of_matches (hpattern : pattern.WellFormed) {path : List Byte}
    (h : pattern.Matches (pathSegments path)) :
    pattern.matchSplit path {} =
      (true, { entries := pattern.bindings (pathSegments path) }) := by
  unfold matchSplit
  dsimp only
  split
  next hoverflow => exact absurd h (not_matches_of_overflow hpattern hoverflow)
  next hoverflow =>
    rw [splitPath_parts (Bool.eq_false_iff.mpr hoverflow)]
    exact matchSegments_of_matches hpattern (fun _ => ne_nil_of_mem_pathSegments) h

/-! ## The parameters -/

theorem bindings_names (hpattern : pattern.WellFormed) (h : pattern.Matches parts) :
    (pattern.bindings parts).map (·.1) = pattern.paramNames := by
  rw [hpattern.names]
  unfold Matches at h
  unfold bindings
  generalize pattern.segments = segments at h ⊢
  induction h with
  | nil => rfl
  | @cons segment part segments parts _ _ ih =>
      cases hkind : segment.kind with
      | literal => simpa [boundParameter, hkind] using ih
      | parameter => simpa [boundParameter, hkind] using ih

theorem instantiate_bindings (h : pattern.Matches parts) :
    instantiate pattern.segments (pattern.bindings parts) = parts := by
  unfold Matches at h
  unfold bindings
  generalize pattern.segments = segments at h ⊢
  induction h with
  | nil => rfl
  | @cons segment part segments parts hsegment _ ih =>
      cases hkind : segment.kind with
      | literal =>
          have hvalue := hsegment hkind
          simpa [instantiate, boundParameter, hkind, hvalue] using ih
      | parameter => simpa [instantiate, boundParameter, hkind] using ih

/-- A pattern matches exactly the paths whose segments are instances of the segments of
its literal, and then its parameters are recorded in order, each with the segment in its
place; the router gets the same answer and the same parameters. -/
theorem matchPath_spec {raw : List Byte} {pattern : PathPattern}
    (hraw : fromLiteral raw = .ok pattern) (path : List Byte) :
    pattern.segments = (pathSegments raw).map segmentOf ∧
      (∀ out, (pattern.matchPath path out).1 = true ↔
        List.Forall₂ SegmentMatches pattern.segments (pathSegments path)) ∧
      (∀ params, pattern.matchPath path {} = (true, params) →
        params.entries = pattern.bindings (pathSegments path) ∧
          params.entries.map (·.1) = pattern.paramNames ∧
          instantiate pattern.segments params.entries = pathSegments path) ∧
      ∀ out, pattern.matchPath path out = pattern.matchSplit path out := by
  have hpattern := fromLiteral_wellFormed hraw
  refine ⟨fromLiteral_segments hraw, ?_, ?_, ?_⟩
  · intro out
    rw [matchPath_eq_matchSplit]
    exact matchSplit_iff hpattern path out
  · intro params hmatch
    rw [matchPath_eq_matchSplit] at hmatch
    have hmatches := (matchSplit_iff hpattern path {}).mp (congrArg Prod.fst hmatch)
    rw [matchSplit_of_matches hpattern hmatches, Prod.mk.injEq] at hmatch
    rw [← hmatch.2]
    exact ⟨rfl, bindings_names hpattern hmatches, instantiate_bindings hmatches⟩
  · exact matchPath_eq_matchSplit pattern path

/-- `/users/{id}` -/
def userPattern : PathPattern :=
  (({} : PathPattern).addLiteral (bytesOf "users")).addParameter (bytesOf "id")

theorem fromLiteral_users : fromLiteral (bytesOf "/users/\x7bid\x7d") = .ok userPattern :=
  rfl

/-- `//users/7/` is an instance, and `/users` is none. -/
theorem matchPath_spec_users :
    (userPattern.matchPath (bytesOf "//users/7/") {}).1 = true ∧
      (userPattern.matchPath (bytesOf "/users") {}).1 = false := by
  constructor
  · apply ((matchPath_spec fromLiteral_users (bytesOf "//users/7/")).2.1 {}).mpr
    decide +kernel
  · rw [Bool.eq_false_iff]
    intro hmatch
    have hshort := ((matchPath_spec fromLiteral_users (bytesOf "/users")).2.1 {}).mp hmatch
    revert hshort
    decide +kernel

end PathPattern

namespace Router

variable {ω : Type}

/-- What the router does for a route, told in terms of `match`. -/
theorem considerRoute_eq_matchPath {path : List Byte}
    (hsplit : (PathPattern.splitPath path).overflow = false) (req : Request) (best : Best ω)
    (entry : RouteEntry ω) :
    considerRoute req (PathPattern.splitPath path).parts best entry =
      if entry.method ≠ req.httpMethod ∨ (entry.pattern.matchPath path {}).1 = false then best
      else if best.route.isNone ∨ best.score < entry.pattern.specificityScore then
        { route := some entry, params := (entry.pattern.matchPath path {}).2,
          score := entry.pattern.specificityScore }
      else best := by
  have hmatch : entry.pattern.matchPath path {} =
      entry.pattern.matchSegments (PathPattern.splitPath path).parts {} := by
    rw [PathPattern.matchPath_eq_matchSplit, PathPattern.matchSplit]
    simp [hsplit]
  rw [hmatch]
  unfold considerRoute
  by_cases hcount : entry.pattern.segmentCount = (PathPattern.splitPath path).parts.length
  · by_cases hmethod : entry.method = req.httpMethod
    · simp [hcount, hmethod]
    · simp [hcount, hmethod]
  · have hfails : (entry.pattern.matchSegments (PathPattern.splitPath path).parts {}).1 = false := by
      unfold PathPattern.matchSegments
      rw [if_neg (by omega), if_pos (Ne.symm hcount)]
    simp [hcount, hfails]

end Router

end Http
end Katana
