import Katana.Library.FirstMax
import Katana.Http.PathPattern

/-!
# The router

`dispatch_with_info` looks twice over the table: for the best route of the
request's method, and, if there is none, for the methods with which the path
would have matched.  Handlers and middlewares are arbitrary effects on the path
parameters and on whatever else they can reach.  The result is compared with a
description in terms of the segments of the path.
-/

namespace Katana
namespace Http

open Library
open PathPattern (pathSegments splitOf splitPath splitPath_eq)

def QUESTION : Byte := 63
def HASH : Byte := 35

/-- The error codes the router knows, and those of handlers. -/
inductive RouteError where
  | ok | notFound | methodNotAllowed
  | other (value : ℕ)
deriving Repr, DecidableEq

/-- `ctx.params`, and the rest of what a handler can reach, the response included. -/
structure RouteContext (ω : Type) where
  params : PathParams := {}
  rest : ω

abbrev Effect (ω : Type) := RouteContext ω → Except RouteError Unit × RouteContext ω

/-- Patterns are built by `from_literal` only. -/
structure RouteEntry (ω : Type) where
  method : Method
  pattern : PathPattern
  built : ∃ raw, PathPattern.fromLiteral raw = .ok pattern
  handler : Request → Effect ω
  middleware : List (Request → Effect ω → Effect ω) := []

structure DispatchResult where
  routeError : RouteError := .ok
  hasError : Bool := false
  pathMatched : Bool := false
  allowedMethodsMask : ℕ := 0
deriving Repr, DecidableEq

def Method.index : Method → ℕ
  | .get => 0
  | .post => 1
  | .put => 2
  | .del => 3
  | .patch => 4
  | .head => 5
  | .options => 6
  | .unknown => 7

def methodBit (m : Method) : ℕ :=
  if 31 ≤ m.index ∨ m = .unknown then 0 else 1 <<< m.index

def stripQuery (uri : List Byte) : List Byte :=
  uri.takeWhile fun c => !(c = QUESTION || c = HASH)

namespace Router

variable {ω : Type}

/-- `middleware_chain::run`: each middleware is given the rest of the chain. -/
def runChain (middleware : List (Request → Effect ω → Effect ω)) (handler : Request → Effect ω)
    (req : Request) : Effect ω :=
  middleware.foldr (fun mw next => mw req next) (handler req)

/-- The best route so far. -/
structure Best (ω : Type) where
  route : Option (RouteEntry ω) := none
  params : PathParams := {}
  score : ℤ := -1

def considerRoute (req : Request) (parts : List (List Byte)) (best : Best ω)
    (entry : RouteEntry ω) : Best ω :=
  if entry.pattern.segmentCount ≠ parts.length then best
  else if entry.method ≠ req.httpMethod then best
  else
    let matched := entry.pattern.matchSegments parts {}
    if !matched.1 then best
    else
      let score := entry.pattern.specificityScore
      if best.route.isNone ∨ best.score < score then
        { route := some entry, params := matched.2, score := score }
      else best

structure Allowed where
  pathMatched : Bool := false
  mask : ℕ := 0

def collectAllowed (parts : List (List Byte)) (allowed : Allowed) (entry : RouteEntry ω) :
    Allowed :=
  if entry.pattern.segmentCount ≠ parts.length then allowed
  else if !(entry.pattern.matchSegments parts {}).1 then allowed
  else { pathMatched := true, mask := allowed.mask ||| methodBit entry.method }

/-- The result of the chain as `dispatch_with_info` reports it. -/
def report (outcome : Except RouteError Unit × RouteContext ω) :
    DispatchResult × RouteContext ω :=
  match outcome.1 with
  | .error error => ({ routeError := error, hasError := true, pathMatched := true }, outcome.2)
  | .ok () => ({}, outcome.2)

def runRoute (route : RouteEntry ω) (req : Request) (ctx : RouteContext ω) :
    DispatchResult × RouteContext ω :=
  report (runChain route.middleware route.handler req ctx)

def dispatchWithInfo (memory : List Byte) (routes : List (RouteEntry ω)) (req : Request)
    (ctx : RouteContext ω) : DispatchResult × RouteContext ω :=
  let path := stripQuery (req.uri.read memory)
  let split := splitPath path
  if split.overflow then ({ routeError := .notFound, hasError := true }, ctx)
  else
    let best := routes.foldl (considerRoute req split.parts) {}
    match best.route with
    | some route => runRoute route req { ctx with params := best.params }
    | none =>
        let allowed := routes.foldl (collectAllowed split.parts) {}
        if allowed.pathMatched then
          ({ routeError := .methodNotAllowed, hasError := true, pathMatched := true,
             allowedMethodsMask := allowed.mask }, ctx)
        else ({ routeError := .notFound, hasError := true }, ctx)

/-- The routes of the request's method that match. -/
def candidates (req : Request) (parts : List (List Byte)) (routes : List (RouteEntry ω)) :
    List (RouteEntry ω) :=
  routes.filter fun route => route.method = req.httpMethod ∧ route.pattern.Matches parts

variable {req : Request} {parts : List (List Byte)} {routes seen : List (RouteEntry ω)}
  {entry : RouteEntry ω}

theorem wellFormed (route : RouteEntry ω) : route.pattern.WellFormed := by
  obtain ⟨raw, hraw⟩ := route.built
  exact PathPattern.fromLiteral_wellFormed hraw

/-- What the first loop knows after a part of the table. -/
def BestOf (req : Request) (parts : List (List Byte)) (seen : List (RouteEntry ω))
    (best : Best ω) : Prop :=
  (best.route = none ∧ candidates req parts seen = []) ∨
    ∃ route, best.route = some route ∧
      FirstMax (fun r => r.pattern.literals) (candidates req parts seen) route ∧
      best.score = route.pattern.specificityScore ∧
      best.params.entries = route.pattern.bindings parts

theorem considerRoute_other (best : Best ω) (hparts : ∀ part ∈ parts, part ≠ [])
    (hother : ¬ (entry.method = req.httpMethod ∧ entry.pattern.Matches parts)) :
    considerRoute req parts best entry = best := by
  unfold considerRoute
  split
  · rfl
  · split
    · rfl
    next hmethod =>
      have hmatched : (entry.pattern.matchSegments parts {}).1 = false := by
        rw [Bool.eq_false_iff]
        intro hmatched
        exact hother ⟨not_not.mp hmethod,
          PathPattern.matchSegments_fst (wellFormed entry) hparts {} hmatched⟩
      simp [hmatched]

theorem considerRoute_candidate (best : Best ω) (hparts : ∀ part ∈ parts, part ≠ [])
    (hmethod : entry.method = req.httpMethod) (hmatches : entry.pattern.Matches parts) :
    considerRoute req parts best entry =
      if best.route.isNone ∨ best.score < entry.pattern.specificityScore then
        { route := some entry, params := { entries := entry.pattern.bindings parts },
          score := entry.pattern.specificityScore }
      else best := by
  unfold considerRoute
  rw [if_neg (not_not.mpr (PathPattern.segmentCount_eq (wellFormed entry) hmatches)),
    if_neg (not_not.mpr hmethod),
    PathPattern.matchSegments_of_matches (wellFormed entry) hparts hmatches]
  simp

theorem BestOf.step {best : Best ω} (h : BestOf req parts seen best)
    (hparts : ∀ part ∈ parts, part ≠ []) (entry : RouteEntry ω) :
    BestOf req parts (seen ++ [entry]) (considerRoute req parts best entry) := by
  by_cases hcandidate : entry.method = req.httpMethod ∧ entry.pattern.Matches parts
  · have hseen : candidates req parts (seen ++ [entry]) = candidates req parts seen ++ [entry] := by
      simp [candidates, hcandidate]
    rw [considerRoute_candidate best hparts hcandidate.1 hcandidate.2]
    unfold BestOf
    rw [hseen]
    right
    rcases h with ⟨hnone, hempty⟩ | ⟨route, hroute, hfirst, hscore, hparams⟩
    · simp only [hnone, Option.isNone_none, true_or, if_true, hempty, List.nil_append]
      exact ⟨entry, rfl, FirstMax.singleton _ _, rfl, rfl⟩
    · have hmatches : route.pattern.Matches parts := by
        have hmem := hfirst.mem
        simp only [candidates, List.mem_filter, decide_eq_true_eq] at hmem
        exact hmem.2.2
      have horder : best.score < entry.pattern.specificityScore ↔
          route.pattern.literals < entry.pattern.literals := by
        rw [hscore, PathPattern.specificityScore_eq (wellFormed route) hmatches,
          PathPattern.specificityScore_eq (wellFormed entry) hcandidate.2]
        omega
      simp only [hroute, Option.isNone_some, Bool.false_eq_true, false_or, horder]
      by_cases hbetter : route.pattern.literals < entry.pattern.literals
      · rw [if_pos hbetter]
        exact ⟨entry, rfl, hfirst.replace hbetter, rfl, rfl⟩
      · rw [if_neg hbetter]
        exact ⟨route, hroute, hfirst.keep (Nat.not_lt.mp hbetter), hscore, hparams⟩
  · have hseen : candidates req parts (seen ++ [entry]) = candidates req parts seen := by
      simp [candidates, hcandidate]
    rw [considerRoute_other best hparts hcandidate]
    unfold BestOf
    rw [hseen]
    exact h

theorem BestOf.foldl {best : Best ω} (h : BestOf req parts seen best)
    (hparts : ∀ part ∈ parts, part ≠ []) :
    BestOf req parts (seen ++ routes) (routes.foldl (considerRoute req parts) best) := by
  induction routes generalizing seen best with
  | nil => simpa using h
  | cons entry routes ih =>
      have hmore := ih (h.step hparts entry)
      simpa using hmore

/-- What the second loop has collected after a part of the table. -/
structure AllowedBy (parts : List (List Byte)) (seen : List (RouteEntry ω))
    (allowed : Allowed) : Prop where
  pathMatched : allowed.pathMatched = true ↔ ∃ route ∈ seen, route.pattern.Matches parts
  mask : ∀ i, allowed.mask.testBit i = true ↔
    ∃ route ∈ seen, route.pattern.Matches parts ∧ (methodBit route.method).testBit i = true

theorem AllowedBy.step {allowed : Allowed} (h : AllowedBy parts seen allowed)
    (hparts : ∀ part ∈ parts, part ≠ []) (entry : RouteEntry ω) :
    AllowedBy parts (seen ++ [entry]) (collectAllowed parts allowed entry) := by
  by_cases hmatches : entry.pattern.Matches parts
  · have hcollect : collectAllowed parts allowed entry =
        { pathMatched := true, mask := allowed.mask ||| methodBit entry.method } := by
      unfold collectAllowed
      rw [if_neg (not_not.mpr (PathPattern.segmentCount_eq (wellFormed entry) hmatches)),
        PathPattern.matchSegments_of_matches (wellFormed entry) hparts hmatches]
      simp
    rw [hcollect]
    constructor
    · simp only [true_iff]
      exact ⟨entry, by simp, hmatches⟩
    · intro i
      simp only [Nat.testBit_or, Bool.or_eq_true, h.mask i, List.mem_append, List.mem_singleton]
      constructor
      · rintro (⟨route, hroute, hbit⟩ | hbit)
        · exact ⟨route, Or.inl hroute, hbit⟩
        · exact ⟨entry, Or.inr rfl, hmatches, hbit⟩
      · rintro ⟨route, hroute | rfl, hroutematches, hbit⟩
        · exact Or.inl ⟨route, hroute, hroutematches, hbit⟩
        · exact Or.inr hbit
  · have hcollect : collectAllowed parts allowed entry = allowed := by
      unfold collectAllowed
      split
      · rfl
      · have hmatched : (entry.pattern.matchSegments parts {}).1 = false := by
          rw [Bool.eq_false_iff]
          intro hmatched
          exact hmatches (PathPattern.matchSegments_fst (wellFormed entry) hparts {} hmatched)
        simp [hmatched]
    rw [hcollect]
    constructor
    · rw [h.pathMatched]
      simp [or_and_right, exists_or, hmatches]
    · intro i
      rw [h.mask i]
      simp [or_and_right, exists_or, hmatches]

theorem AllowedBy.foldl {allowed : Allowed} (h : AllowedBy parts seen allowed)
    (hparts : ∀ part ∈ parts, part ≠ []) :
    AllowedBy parts (seen ++ routes) (routes.foldl (collectAllowed parts) allowed) := by
  induction routes generalizing seen allowed with
  | nil => simpa using h
  | cons entry routes ih =>
      have hmore := ih (h.step hparts entry)
      simpa using hmore

theorem not_matches_of_long (hlong : MAX_ROUTE_SEGMENTS < parts.length) (route : RouteEntry ω) :
    ¬ route.pattern.Matches parts := by
  intro hmatches
  have hcount := PathPattern.segmentCount_eq (wellFormed route) hmatches
  have hbounded := (wellFormed route).bounded
  omega

/-- Dispatch runs the first of the most literal matching routes of the method; without
one it tells the methods of the routes that match, and otherwise that there are none. -/
theorem dispatchWithInfo_spec (memory : List Byte) (routes : List (RouteEntry ω)) (req : Request)
    (ctx : RouteContext ω) :
    let parts := pathSegments (stripQuery (req.uri.read memory))
    ((∃ route ∈ routes, route.method = req.httpMethod ∧ route.pattern.Matches parts) →
      ∃ route, FirstMax (fun r => r.pattern.literals)
          (routes.filter fun r => r.method = req.httpMethod ∧ r.pattern.Matches parts) route ∧
        dispatchWithInfo memory routes req ctx =
          runRoute route req { ctx with params := { entries := route.pattern.bindings parts } }) ∧
    ((∀ route ∈ routes, ¬ (route.method = req.httpMethod ∧ route.pattern.Matches parts)) →
      (∃ route ∈ routes, route.pattern.Matches parts) →
      ∃ mask, dispatchWithInfo memory routes req ctx =
          ({ routeError := .methodNotAllowed, hasError := true, pathMatched := true,
             allowedMethodsMask := mask }, ctx) ∧
        ∀ i, mask.testBit i = true ↔
          ∃ route ∈ routes, route.pattern.Matches parts ∧
            (methodBit route.method).testBit i = true) ∧
    ((∀ route ∈ routes, ¬ route.pattern.Matches parts) →
      dispatchWithInfo memory routes req ctx =
        ({ routeError := .notFound, hasError := true }, ctx)) := by
  intro parts
  have hsplit : splitPath (stripQuery (req.uri.read memory)) = splitOf parts := splitPath_eq _
  have hparts : ∀ part ∈ parts, part ≠ [] := fun part =>
    PathPattern.ne_nil_of_mem_pathSegments
  unfold dispatchWithInfo
  dsimp only
  rw [hsplit]
  by_cases hlong : MAX_ROUTE_SEGMENTS < parts.length
  · have hnone := not_matches_of_long (ω := ω) hlong
    have hoverflow : (splitOf parts).overflow = true := decide_eq_true hlong
    rw [if_pos hoverflow]
    refine ⟨?_, ?_, fun _ => rfl⟩
    · rintro ⟨route, -, -, hmatches⟩
      exact absurd hmatches (hnone route)
    · rintro - ⟨route, -, hmatches⟩
      exact absurd hmatches (hnone route)
  · have htake : parts.take MAX_ROUTE_SEGMENTS = parts :=
      List.take_of_length_le (Nat.not_lt.mp hlong)
    simp only [splitOf, hlong, decide_false, Bool.false_eq_true, if_false, htake]
    have hbest : BestOf req parts routes (routes.foldl (considerRoute req parts) {}) := by
      have hstart : BestOf req parts ([] : List (RouteEntry ω)) {} := Or.inl ⟨rfl, rfl⟩
      simpa using hstart.foldl hparts
    have hallowed : AllowedBy parts routes (routes.foldl (collectAllowed parts) {}) := by
      have hstart : AllowedBy parts ([] : List (RouteEntry ω)) {} := by
        constructor <;> simp
      simpa using hstart.foldl hparts
    rcases hbest with ⟨hroute, hempty⟩ | ⟨best, hroute, hfirst, -, hparams⟩
    · have hnone : ∀ route ∈ routes,
          ¬ (route.method = req.httpMethod ∧ route.pattern.Matches parts) := by
        simpa [candidates, List.filter_eq_nil_iff] using hempty
      rw [hroute]
      refine ⟨?_, ?_, ?_⟩
      · rintro ⟨route, hmem, hcandidate⟩
        exact absurd hcandidate (hnone route hmem)
      · intro _ hmatched
        rw [if_pos (hallowed.pathMatched.mpr hmatched)]
        exact ⟨_, rfl, hallowed.mask⟩
      · intro hno
        rw [if_neg]
        intro hmatched
        obtain ⟨route, hmem, hmatches⟩ := hallowed.pathMatched.mp hmatched
        exact hno route hmem hmatches
    · have hmem : best ∈ routes ∧ best.method = req.httpMethod ∧ best.pattern.Matches parts := by
        have hmem := hfirst.mem
        simpa [candidates] using hmem
      rw [hroute]
      refine ⟨?_, ?_, ?_⟩
      · intro _
        have hentries : (routes.foldl (considerRoute req parts) {}).params =
            { entries := best.pattern.bindings parts } := by
          rw [← hparams]
        exact ⟨best, hfirst, by rw [hentries]⟩
      · intro hno
        exact absurd hmem.2 (hno best hmem.1)
      · intro hno
        exact absurd hmem.2.2 (hno best hmem.1)

/-- A route whose handler notes its number. -/
def numberedRoute (method : Method) (raw : List Byte) (pattern : PathPattern)
    (h : PathPattern.fromLiteral raw = .ok pattern) (number : ℕ) : RouteEntry (List ℕ) :=
  { method := method
    pattern := pattern
    built := ⟨raw, h⟩
    handler := fun _ ctx => (.ok (), { ctx with rest := ctx.rest ++ [number] }) }

/-- `GET /users/{id}`, `GET /users/me` and `POST /users/me`. -/
def usersTable : List (RouteEntry (List ℕ)) :=
  let user : PathPattern := (({} : PathPattern).addLiteral (bytesOf "users")).addParameter
    (bytesOf "id")
  let me : PathPattern := (({} : PathPattern).addLiteral (bytesOf "users")).addLiteral
    (bytesOf "me")
  [numberedRoute .get (bytesOf "/users/\x7bid\x7d") user rfl 0,
    numberedRoute .get (bytesOf "/users/me") me rfl 1,
    numberedRoute .post (bytesOf "/users/me") me rfl 2]

theorem dispatchWithInfo_spec_usersTable :
    (dispatchWithInfo [] usersTable { httpMethod := .get, uri := .owned (bytesOf "//users/me?x") }
        { rest := [] }).2.rest = [1] ∧
      dispatchWithInfo [] usersTable { httpMethod := .put, uri := .owned (bytesOf "/groups") }
          { rest := [] } =
        ({ routeError := .notFound, hasError := true }, { rest := [] }) ∧
      ∃ mask, dispatchWithInfo [] usersTable
          { httpMethod := .put, uri := .owned (bytesOf "/users/me") } { rest := [] } =
        ({ routeError := .methodNotAllowed, hasError := true, pathMatched := true,
           allowedMethodsMask := mask }, { rest := [] }) := by
  refine ⟨by decide +kernel, ?_, ?_⟩
  · exact (dispatchWithInfo_spec [] usersTable _ _).2.2 (by decide +kernel)
  · obtain ⟨mask, hresult, -⟩ := (dispatchWithInfo_spec [] usersTable
      { httpMethod := .put, uri := .owned (bytesOf "/users/me") } { rest := [] }).2.1
        (by decide +kernel) (by decide +kernel)
    exact ⟨mask, hresult⟩

end Router

end Http
end Katana
