import Katana.Http.HeadersSpec
import Katana.Http.Negotiation
import Katana.Http.Response
import Katana.Http.RoundTrip
import Katana.Http.Router

/-!
# From dispatch to the response

`dispatch_or_problem` turns the result of the router into a response.  An error becomes a
problem document that replaces whatever the handlers have written, and where only the
method was wrong, the `Allow` header names the methods of the routes that match the path.
-/

namespace Katana
namespace Http

open Library
open PathPattern (pathSegments)

def NOT_FOUND : ℕ := 7
def METHOD_NOT_ALLOWED : ℕ := 8

/-- `ec.value()` -/
def RouteError.value : RouteError → ℕ
  | .ok => 0
  | .notFound => NOT_FOUND
  | .methodNotAllowed => METHOD_NOT_ALLOWED
  | .other value => value

namespace ProblemDetails

/-- The factories differ in the status and the title. -/
def ofStatus (status : ℤ) (title : String) (detail : List Byte) : ProblemDetails :=
  { status := status
    title := bytesOf title
    detail := if detail = [] then none else some detail }

def notFound (detail : List Byte) : ProblemDetails :=
  ofStatus 404 "Not Found" detail

def methodNotAllowed (detail : List Byte) : ProblemDetails :=
  ofStatus 405 "Method Not Allowed" detail

def notAcceptable (detail : List Byte) : ProblemDetails :=
  ofStatus 406 "Not Acceptable" detail

def unsupportedMediaType (detail : List Byte) : ProblemDetails :=
  ofStatus 415 "Unsupported Media Type" detail

def internalServerError (detail : List Byte) : ProblemDetails :=
  ofStatus 500 "Internal Server Error" detail

end ProblemDetails

/-! ## The response of a handler -/

/-- A response with tables of the widths of the source, and what else handlers can reach. -/
structure Outgoing (σ : Type) where
  response : Response
  shaped : response.headers.Shaped
  rest : σ

theorem shaped_clear {m : HeadersMap} (h : m.Shaped) : m.clear.Shaped :=
  ⟨h.known.clear {}, h.unknown.clear {}⟩

theorem shaped_setKnownBorrowed {m : HeadersMap} (h : m.Shaped) (f : Field) (value : View) :
    (m.setKnownBorrowed f value).Shaped := by
  unfold HeadersMap.setKnownBorrowed
  split
  · exact h
  · dsimp only
    split
    next hmodify => exact ⟨h.known.modify hmodify, h.unknown⟩
    next => exact ⟨h.known.place (by decide) _ _ _, h.unknown⟩

namespace Outgoing

variable {σ : Type}

/-- The headers that `response::assign_error` leaves. -/
def problemHeaders (m : HeadersMap) : HeadersMap :=
  m.clear.setKnownBorrowed .contentType (.owned CONTENT_TYPE_PROBLEM_JSON)

theorem problemHeaders_shaped {m : HeadersMap} (h : m.Shaped) : (problemHeaders m).Shaped :=
  shaped_setKnownBorrowed (shaped_clear h) ..

/-- `response::assign_error` -/
def problem (problem : ProblemDetails) (out : Outgoing σ) : Outgoing σ where
  response :=
    { status := problem.status
      reason := problem.title
      body := problem.toJson
      headers := problemHeaders out.response.headers
      chunked := false }
  shaped := problemHeaders_shaped out.shaped
  rest := out.rest

/-- `set_header` for a name of the table. -/
def setHeader (f : Field) (value : List Byte) (out : Outgoing σ) : Outgoing σ where
  response := { out.response with headers := out.response.headers.setKnown f value }
  shaped := shaped_setKnownBorrowed out.shaped ..
  rest := out.rest

end Outgoing

/-! ## Errors -/

def ALLOW_ORDER : List Method :=
  [.get, .head, .post, .put, .del, .patch, .options]

def appendAllowed (mask : ℕ) (s : List Byte × Bool) (m : Method) : List Byte × Bool :=
  if mask &&& methodBit m = 0 then s
  else ((if s.2 then s.1 else s.1 ++ bytesOf ", ") ++ methodToString m, false)

def allowHeaderFromMask (mask : ℕ) : List Byte :=
  if mask = 0 then [] else (ALLOW_ORDER.foldl (appendAllowed mask) ([], true)).1

namespace Router

variable {σ : Type}

def mapRouteError (ec : RouteError) (out : Outgoing σ) : Outgoing σ :=
  if ec.value = NOT_FOUND then out.problem (.notFound [])
  else if ec.value = METHOD_NOT_ALLOWED then out.problem (.methodNotAllowed [])
  else out.problem (.internalServerError [])

def mapDispatchError (result : DispatchResult) (out : Outgoing σ) : Outgoing σ :=
  if result.routeError.value = METHOD_NOT_ALLOWED then
    let out := out.problem (.methodNotAllowed [])
    let allow := allowHeaderFromMask result.allowedMethodsMask
    if allow = [] then out else out.setHeader .allow allow
  else mapRouteError result.routeError out

def dispatchOrProblem (memory : List Byte) (routes : List (RouteEntry (Outgoing σ)))
    (req : Request) (ctx : RouteContext (Outgoing σ)) : RouteContext (Outgoing σ) :=
  let info := dispatchWithInfo memory routes req ctx
  if info.1.hasError then { info.2 with rest := mapDispatchError info.1 info.2.rest } else info.2

/-- `make_content_negotiation_middleware` -/
def contentNegotiation (memory : List Byte) (consumes produces : MediaTypes) (req : Request)
    (next : Effect (Outgoing σ)) : Effect (Outgoing σ) := fun ctx =>
  if !validateContentType memory req consumes then
    (.ok (), { ctx with rest := ctx.rest.problem (.unsupportedMediaType []) })
  else if !validateAccept memory req produces then
    (.ok (), { ctx with rest := ctx.rest.problem (.notAcceptable []) })
  else next ctx

/-! ## The methods of the mask -/

/-- The methods of the routes that match, in the order of the header. -/
def allowedMethods (parts : List (List Byte)) (routes : List (RouteEntry (Outgoing σ))) :
    List Method :=
  ALLOW_ORDER.filter fun m => ∃ route ∈ routes, route.pattern.Matches parts ∧ route.method = m

/-- Their names, separated by commas. -/
def joinMethods (methods : List Method) : List Byte :=
  (bytesOf ", ").intercalate (methods.map methodToString)

theorem testBit_methodBit : ∀ m ∈ ALLOW_ORDER, ∀ other : Method,
    (methodBit other).testBit m.index = true ↔ other = m := by
  intro m hm other
  revert m
  cases other <;> decide

theorem and_methodBit : ∀ m ∈ ALLOW_ORDER, ∀ mask : ℕ,
    mask &&& methodBit m = 0 ↔ mask.testBit m.index = false := by
  intro m hm mask
  have hbit : methodBit m = 2 ^ m.index := by
    revert m
    decide
  rw [hbit, Nat.and_two_pow]
  cases mask.testBit m.index <;> simp

theorem joinMethods_cons (m : Method) (methods : List Method) :
    joinMethods (m :: methods) =
      methodToString m ++ methods.flatMap fun other => bytesOf ", " ++ methodToString other := by
  induction methods generalizing m with
  | nil => simp [joinMethods]
  | cons other methods ih =>
      have hrest := ih other
      unfold joinMethods at hrest ⊢
      rw [List.map_cons, List.map_cons, List.intercalate_cons_cons, ← List.map_cons, hrest,
        List.flatMap_cons]
      simp

/-- Behind the first name every name follows a comma. -/
theorem appendAllowed_later (mask : ℕ) (methods : List Method) (allow : List Byte) :
    methods.foldl (appendAllowed mask) (allow, false) =
      (allow ++ (methods.filter fun m => mask &&& methodBit m ≠ 0).flatMap
        fun m => bytesOf ", " ++ methodToString m, false) := by
  induction methods generalizing allow with
  | nil => simp
  | cons m methods ih =>
      rw [List.foldl_cons, appendAllowed]
      by_cases hbit : mask &&& methodBit m = 0
      · rw [if_pos hbit, ih, List.filter_cons_of_neg (by simpa using hbit)]
      · rw [if_neg hbit, List.filter_cons_of_pos (by simpa using hbit), List.flatMap_cons]
        simp only [Bool.false_eq_true, if_false]
        rw [ih]
        simp

theorem appendAllowed_first (mask : ℕ) (methods : List Method) :
    (methods.foldl (appendAllowed mask) ([], true)).1 =
      joinMethods (methods.filter fun m => mask &&& methodBit m ≠ 0) := by
  induction methods with
  | nil => rfl
  | cons m methods ih =>
      rw [List.foldl_cons, appendAllowed]
      by_cases hbit : mask &&& methodBit m = 0
      · rw [if_pos hbit, ih, List.filter_cons_of_neg (by simpa using hbit)]
      · rw [if_neg hbit, List.filter_cons_of_pos (by simpa using hbit), joinMethods_cons]
        simp only [if_true, List.nil_append]
        rw [appendAllowed_later]

theorem allowHeaderFromMask_eq (mask : ℕ) : allowHeaderFromMask mask =
    joinMethods (ALLOW_ORDER.filter fun m => mask &&& methodBit m ≠ 0) := by
  unfold allowHeaderFromMask
  split
  next hzero => simp [hzero, joinMethods]
  next => exact appendAllowed_first ..

variable {parts : List (List Byte)} {routes : List (RouteEntry (Outgoing σ))}

/-- The header says what the second loop over the table has found. -/
theorem allowHeaderFromMask_allowed {mask : ℕ}
    (hmask : ∀ i, mask.testBit i = true ↔ ∃ route ∈ routes, route.pattern.Matches parts ∧
      (methodBit route.method).testBit i = true) :
    allowHeaderFromMask mask = joinMethods (allowedMethods parts routes) := by
  rw [allowHeaderFromMask_eq, allowedMethods]
  congr 1
  apply List.filter_congr
  intro m hm
  have hfound : mask &&& methodBit m ≠ 0 ↔
      ∃ route ∈ routes, route.pattern.Matches parts ∧ route.method = m := by
    rw [ne_eq, and_methodBit m hm, Bool.not_eq_false, hmask]
    simp only [testBit_methodBit m hm]
  exact decide_eq_decide.mpr hfound

theorem joinMethods_length_le (methods : List Method) :
    (joinMethods methods).length ≤ 9 * methods.length := by
  cases methods with
  | nil => simp [joinMethods]
  | cons m methods =>
      have hcomma : (bytesOf ", ").length = 2 := by decide
      have hrest : (methods.flatMap fun other => bytesOf ", " ++ methodToString other).length ≤
          9 * methods.length := by
        induction methods with
        | nil => simp
        | cons other methods ih =>
            have hname := methodToString_length_le other
            rw [List.flatMap_cons, List.length_append, List.length_append, List.length_cons, hcomma]
            omega
      have hname := methodToString_length_le m
      rw [joinMethods_cons, List.length_append, List.length_cons]
      omega

theorem allow_length (parts : List (List Byte)) (routes : List (RouteEntry (Outgoing σ))) :
    (joinMethods (allowedMethods parts routes)).length < 2 ^ 16 := by
  have hnames := joinMethods_length_le (allowedMethods parts routes)
  have hfew : (allowedMethods parts routes).length ≤ ALLOW_ORDER.length :=
    List.length_filter_le ..
  have hseven : ALLOW_ORDER.length = 7 := rfl
  omega

/-! ## The answer -/

/-- The headers of a problem response. -/
def problemSpec (allow : List Byte) : HeaderSpec :=
  let spec := HeaderSpec.empty.set (.field .contentType) CONTENT_TYPE_PROBLEM_JSON
  if allow = [] then spec else spec.set (.field .allow) allow

/-- The response is a problem document and has no other headers; of what handlers have
written nothing is left. -/
structure Reports (memory : List Byte) (problem : ProblemDetails) (allow : List Byte)
    (resp : Response) : Prop where
  status : resp.status = problem.status
  reason : resp.reason = problem.title
  body : resp.body = problem.toJson
  chunked : resp.chunked = false
  headers : HeadersMap.Refines memory (problemSpec allow) resp.headers

/-- The problem that an error of a handler becomes, whatever its category. -/
def errorProblem (ec : RouteError) : ProblemDetails :=
  if ec.value = NOT_FOUND then .notFound []
  else if ec.value = METHOD_NOT_ALLOWED then .methodNotAllowed []
  else .internalServerError []

theorem reports_problem (memory : List Byte) (problem : ProblemDetails) (out : Outgoing σ) :
    Reports memory problem [] (out.problem problem).response := by
  constructor
  · rfl
  · rfl
  · rfl
  · rfl
  · have hclear : HeadersMap.Refines memory .empty out.response.headers.clear := by
      apply HeadersMap.refines_blank
      · exact shaped_clear out.shaped
      · exact fun entry hentry => SlotTable.mem_slots_clear hentry
      · exact fun entry hentry => SlotTable.mem_slots_clear hentry
    have hfits : (View.owned CONTENT_TYPE_PROBLEM_JSON).Fits memory :=
      View.fits_owned (by decide)
    exact hclear.setKnownBorrowed (by decide) hfits

theorem reports_allow {memory : List Byte} {problem : ProblemDetails} {out : Outgoing σ}
    (h : Reports memory problem [] out.response) {allow : List Byte} (hne : allow ≠ [])
    (hlength : allow.length < 2 ^ 16) :
    Reports memory problem allow (out.setHeader .allow allow).response := by
  constructor
  · exact h.status
  · exact h.reason
  · exact h.body
  · exact h.chunked
  · have hset := h.headers.setKnownBorrowed (by decide : Field.allow ≠ .unknown)
      (View.fits_owned hlength)
    unfold problemSpec at hset ⊢
    rw [if_neg hne]
    exact hset

theorem mapRouteError_reports (memory : List Byte) (ec : RouteError) (out : Outgoing σ) :
    Reports memory (errorProblem ec) [] (mapRouteError ec out).response ∧
      (mapRouteError ec out).rest = out.rest := by
  unfold mapRouteError errorProblem
  split
  · exact ⟨reports_problem .., rfl⟩
  · split
    · exact ⟨reports_problem .., rfl⟩
    · exact ⟨reports_problem .., rfl⟩

/-- An error without a mask never brings an `Allow` header. -/
theorem mapDispatchError_reports (memory : List Byte) {result : DispatchResult}
    (hmask : result.allowedMethodsMask = 0) (out : Outgoing σ) :
    Reports memory (errorProblem result.routeError) [] (mapDispatchError result out).response ∧
      (mapDispatchError result out).rest = out.rest := by
  unfold mapDispatchError
  split
  next hvalue =>
    have hallow : allowHeaderFromMask result.allowedMethodsMask = [] := by
      rw [hmask]
      rfl
    rw [if_pos hallow]
    have hproblem : errorProblem result.routeError = .methodNotAllowed [] := by
      rw [errorProblem, if_neg (by rw [hvalue]; decide), if_pos hvalue]
    rw [hproblem]
    exact ⟨reports_problem .., rfl⟩
  next => exact mapRouteError_reports ..

theorem mapDispatchError_allow (memory : List Byte) {mask : ℕ}
    (hmask : ∀ i, mask.testBit i = true ↔ ∃ route ∈ routes, route.pattern.Matches parts ∧
      (methodBit route.method).testBit i = true) (out : Outgoing σ) :
    let result : DispatchResult :=
      { routeError := .methodNotAllowed, hasError := true, pathMatched := true,
        allowedMethodsMask := mask }
    Reports memory (.methodNotAllowed []) (joinMethods (allowedMethods parts routes))
        (mapDispatchError result out).response ∧ (mapDispatchError result out).rest = out.rest := by
  intro result
  have hvalue : result.routeError.value = METHOD_NOT_ALLOWED := rfl
  unfold mapDispatchError
  rw [if_pos hvalue]
  dsimp only
  rw [allowHeaderFromMask_allowed hmask]
  split
  next hempty =>
    rw [hempty]
    exact ⟨reports_problem .., rfl⟩
  next hne => exact ⟨reports_allow (reports_problem ..) hne (allow_length ..), rfl⟩

/-- A request is answered by the first of the most literal routes of its method that match,
as its handlers leave the response unless they return an error.  Without such a route the
answer is a problem document: 405 with the methods of the routes that match in `Allow`, or
404 where no route matches. -/
theorem dispatchOrProblem_spec (memory : List Byte) (routes : List (RouteEntry (Outgoing σ)))
    (req : Request) (ctx : RouteContext (Outgoing σ)) :
    let parts := pathSegments (stripQuery (req.uri.read memory))
    let final := dispatchOrProblem memory routes req ctx
    ((∃ route ∈ routes, route.method = req.httpMethod ∧ route.pattern.Matches parts) →
      ∃ route, FirstMax (fun r => r.pattern.literals)
          (routes.filter fun r => r.method = req.httpMethod ∧ r.pattern.Matches parts) route ∧
        let outcome := runChain route.middleware route.handler req
          { ctx with params := { entries := route.pattern.bindings parts } }
        match outcome.1 with
        | .ok () => final = outcome.2
        | .error ec => Reports memory (errorProblem ec) [] final.rest.response ∧
            final.params = outcome.2.params ∧ final.rest.rest = outcome.2.rest.rest) ∧
    ((∀ route ∈ routes, ¬ (route.method = req.httpMethod ∧ route.pattern.Matches parts)) →
      (∃ route ∈ routes, route.pattern.Matches parts) →
      Reports memory (.methodNotAllowed []) (joinMethods (allowedMethods parts routes))
          final.rest.response ∧ final.params = ctx.params ∧ final.rest.rest = ctx.rest.rest) ∧
    ((∀ route ∈ routes, ¬ route.pattern.Matches parts) →
      Reports memory (.notFound []) [] final.rest.response ∧ final.params = ctx.params ∧
        final.rest.rest = ctx.rest.rest) := by
  intro parts final
  rcases dispatchWithInfo_spec memory routes req ctx with ⟨hfound, hmethod, hnone⟩
  refine ⟨fun hroute => ?_, fun hno hmatched => ?_, fun hno => ?_⟩
  · rcases hfound hroute with ⟨route, hfirst, hrun⟩
    refine ⟨route, hfirst, ?_⟩
    have hfinal : final = dispatchOrProblem memory routes req ctx := rfl
    unfold dispatchOrProblem at hfinal
    rw [hrun, runRoute, report] at hfinal
    intro outcome
    have houtcome : runChain route.middleware route.handler req
        { ctx with params := { entries := route.pattern.bindings parts } } = outcome := rfl
    rw [houtcome] at hfinal
    split
    next hok =>
      rw [hok] at hfinal
      exact hfinal
    next ec herror =>
      rw [herror] at hfinal
      simp only [if_true] at hfinal
      rw [hfinal]
      let result : DispatchResult := { routeError := ec, hasError := true, pathMatched := true }
      have hmask : result.allowedMethodsMask = 0 := rfl
      have hreports := mapDispatchError_reports memory hmask outcome.2.rest
      exact ⟨hreports.1, rfl, hreports.2⟩
  · rcases hmethod hno hmatched with ⟨mask, hresult, hmask⟩
    have hfinal : final = dispatchOrProblem memory routes req ctx := rfl
    unfold dispatchOrProblem at hfinal
    rw [hresult] at hfinal
    simp only [if_true] at hfinal
    rw [hfinal]
    have hreports := mapDispatchError_allow memory hmask ctx.rest
    exact ⟨hreports.1, rfl, hreports.2⟩
  · have hfinal : final = dispatchOrProblem memory routes req ctx := rfl
    unfold dispatchOrProblem at hfinal
    rw [hnone hno] at hfinal
    simp only [if_true] at hfinal
    rw [hfinal]
    let result : DispatchResult := { routeError := .notFound, hasError := true }
    have hmask : result.allowedMethodsMask = 0 := rfl
    have hreports := mapDispatchError_reports memory hmask ctx.rest
    exact ⟨hreports.1, rfl, hreports.2⟩

/-- A route that negotiates first answers a request of a type that it does not take or give
by a problem document, and its handlers do not run. -/
theorem runChain_contentNegotiation (memory : List Byte) (consumes produces : MediaTypes)
    (middleware : List (Request → Effect (Outgoing σ) → Effect (Outgoing σ)))
    (handler : Request → Effect (Outgoing σ)) (req : Request) (ctx : RouteContext (Outgoing σ)) :
    let outcome := runChain (contentNegotiation memory consumes produces :: middleware) handler
      req ctx
    if validateContentType memory req consumes = false then
      Reports memory (.unsupportedMediaType []) [] outcome.2.rest.response ∧
        outcome.1 = .ok () ∧ outcome.2.rest.rest = ctx.rest.rest
    else if validateAccept memory req produces = false then
      Reports memory (.notAcceptable []) [] outcome.2.rest.response ∧
        outcome.1 = .ok () ∧ outcome.2.rest.rest = ctx.rest.rest
    else outcome = runChain middleware handler req ctx := by
  intro outcome
  have houtcome : outcome = contentNegotiation memory consumes produces req
    (runChain middleware handler req) ctx := rfl
  unfold contentNegotiation at houtcome
  split
  next htype =>
    rw [htype] at houtcome
    rw [houtcome]
    exact ⟨reports_problem .., rfl, rfl⟩
  next htype =>
    rw [Bool.not_eq_false] at htype
    split
    next haccept =>
      rw [htype, haccept] at houtcome
      rw [houtcome]
      exact ⟨reports_problem .., rfl, rfl⟩
    next haccept =>
      rw [Bool.not_eq_false] at haccept
      rw [htype, haccept] at houtcome
      exact houtcome

/-- The pattern of `/users/me`. -/
def mePattern : PathPattern :=
  (({} : PathPattern).addLiteral (bytesOf "users")).addLiteral (bytesOf "me")

theorem mePattern_built : ∃ raw, PathPattern.fromLiteral raw = .ok mePattern :=
  ⟨bytesOf "/users/me", rfl⟩

/-- A route to `/users/me` whose handler sets the body, or fails after it has done
so. -/
def bodyRoute (method : Method) (result : Except RouteError Unit) :
    RouteEntry (Outgoing Unit) :=
  { method := method
    pattern := mePattern
    built := mePattern_built
    handler := fun _ ctx => (result, { ctx with rest :=
      { ctx.rest with response := { ctx.rest.response with body := bytesOf "me" } } }) }

/-- `POST /users/me`, `GET /users/me` and `PUT /users/me`, whose handler fails. -/
def bodyTable : List (RouteEntry (Outgoing Unit)) :=
  [bodyRoute .post (.ok ()), bodyRoute .get (.ok ()),
    bodyRoute .put (.error (.other METHOD_NOT_ALLOWED))]

theorem shaped_empty : ({} : HeadersMap).Shaped :=
  ⟨⟨by simp, by simp⟩, ⟨by simp, by simp⟩⟩

def freshContext : RouteContext (Outgoing Unit) :=
  { rest := { response := {}, shaped := shaped_empty, rest := () } }

theorem dispatchOrProblem_spec_bodyTable :
    Reports [] (.methodNotAllowed []) (bytesOf "GET, POST, PUT")
        (dispatchOrProblem [] bodyTable
          { httpMethod := .del, uri := .owned (bytesOf "/users/me") } freshContext).rest.response ∧
      Reports [] (.notFound []) [] (dispatchOrProblem [] bodyTable
        { httpMethod := .get, uri := .owned (bytesOf "/groups") } freshContext).rest.response := by
  constructor
  · have hmethod := (dispatchOrProblem_spec [] bodyTable
      { httpMethod := .del, uri := .owned (bytesOf "/users/me") } freshContext).2.1
        (by decide +kernel) (by decide +kernel)
    have hallow : joinMethods (allowedMethods (pathSegments (stripQuery (bytesOf "/users/me")))
        bodyTable) = bytesOf "GET, POST, PUT" := by
      decide +kernel
    exact hallow ▸ hmethod.1
  · exact ((dispatchOrProblem_spec [] bodyTable
      { httpMethod := .get, uri := .owned (bytesOf "/groups") } freshContext).2.2
        (by decide +kernel)).1

end Router

end Http
end Katana
