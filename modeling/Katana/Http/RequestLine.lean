import Katana.Http.RoundTrip

/-!
# The grammar of the request line

`process_request_line` looks for two spaces and checks the three parts.  What it
takes is a method, a target and the version with one space between them; but the
target may be empty.
-/

namespace Katana
namespace Http

/-- A method, a target and the version. -/
def requestLineOf (httpMethod : Method) (target : List Byte) : List Byte :=
  methodToString httpMethod ++ SP :: (target ++ SP :: bytesOf "HTTP/1.1")

/-- The method is known, and the target is not too long and has only visible
characters. -/
def MayBegin (httpMethod : Method) (target : List Byte) : Prop :=
  httpMethod ≠ .unknown ∧ target.length ≤ MAX_URI_LENGTH ∧ ∀ c ∈ target, 0x21 ≤ c ∧ c ≤ 0x7e

theorem uriChar_of_valid : ∀ c : Byte,
    (c = SP || c = CR || c = LF || isCtl c || 0x80 ≤ c) = false → 0x21 ≤ c ∧ c ≤ 0x7e := by
  intro c h
  simp only [Bool.or_eq_false_iff, decide_eq_false_iff_not, isCtl, SP, CR, LF,
    UInt8.le_iff_toNat_le, UInt8.lt_iff_toNat_lt, ← UInt8.toNat_inj] at h ⊢
  simp at h ⊢
  omega

theorem methodToString_parseMethod {text : List Byte} (h : parseMethod text ≠ .unknown) :
    methodToString (parseMethod text) = text := by
  unfold parseMethod at h ⊢
  split_ifs at h ⊢ <;> simp_all [methodToString]

theorem methodToString_injective {a b : Method} (ha : a ≠ .unknown) (hb : b ≠ .unknown)
    (h : methodToString a = methodToString b) : a = b := by
  rw [← (methodToString_facts a).2.1 ha, h, (methodToString_facts b).2.1 hb]

namespace Parser

/-- A line that is taken is a method, a target and the version. -/
theorem requestLineOf_of_ok {p : Parser} {start : ℕ} {line : List Byte}
    (hok : (p.processRequestLine start line).2 = .ok ()) :
    ∃ httpMethod target, MayBegin httpMethod target ∧ line = requestLineOf httpMethod target := by
  unfold processRequestLine at hok
  split at hok
  · cases hok
  split at hok
  · cases hok
  next methodEnd hfirst =>
  dsimp only at hok
  split at hok
  · cases hok
  next hmethod =>
  split at hok
  · cases hok
  next uriLength hsecond =>
  split_ifs at hok with hlong hinvalid hversion
  · cases hok
  · cases hok
  · cases hok
  rw [not_not] at hversion
  have hline := findByte_split hfirst
  have hrest := findByte_split hsecond
  rw [List.drop_drop, show methodEnd + 1 + (uriLength + 1) = methodEnd + 1 + uriLength + 1 by omega,
    hversion] at hrest
  refine ⟨_, _, ⟨hmethod, Nat.not_lt.mp hlong, ?_⟩, ?_⟩
  · intro c hc
    apply uriChar_of_valid
    simp only [containsInvalidUriChar, List.any_eq_true, not_exists, not_and,
      Bool.not_eq_true] at hinvalid
    exact hinvalid c hc
  · rw [requestLineOf, methodToString_parseMethod hmethod, ← hrest, ← hline]

theorem processRequestLine_lineOf {httpMethod : Method} {target : List Byte}
    (h : MayBegin httpMethod target) (start : ℕ) (p : Parser) :
    p.processRequestLine start (requestLineOf httpMethod target) =
      ({ p with
          request :=
            { p.request with
              httpMethod := httpMethod
              uri := .buffer (start + ((methodToString httpMethod).length + 1)) target.length } },
        .ok ()) :=
  processRequestLine_valid h.1 h.2.2 h.2.1 start p

/-- The target is where the line says. -/
theorem read_target {buffer target : List Byte} {start : ℕ} {httpMethod : Method}
    (hline : requestLineOf httpMethod target <+: buffer.drop start) :
    (View.buffer (start + ((methodToString httpMethod).length + 1)) target.length).read buffer =
      target := by
  obtain ⟨rest, hrest⟩ := hline
  rw [View.read, ← List.drop_drop, ← hrest, requestLineOf, List.append_assoc, ← List.drop_drop,
    List.drop_left, List.cons_append, List.drop_one, List.tail_cons, List.append_assoc,
    List.take_left]

/-- What is expected of `process_request_line` for a line of the buffer: it takes
the line exactly if the line is made of a method, a target that is not empty, and
the version, and then has these. -/
def TakesRequestLine (p : Parser) (start : ℕ) (line : List Byte) : Prop :=
  ((p.processRequestLine start line).2 = .ok () ↔
      ∃ httpMethod target, MayBegin httpMethod target ∧ target ≠ [] ∧
        line = requestLineOf httpMethod target) ∧
    ∀ httpMethod target, MayBegin httpMethod target → target ≠ [] →
      line = requestLineOf httpMethod target →
        (p.processRequestLine start line).1.request.httpMethod = httpMethod ∧
          (p.processRequestLine start line).1.request.uri.read p.buffer = target

/-- A line with nothing between its two spaces is taken. -/
theorem not_takesRequestLine_empty {httpMethod : Method} (hmethod : httpMethod ≠ .unknown)
    (p : Parser) (start : ℕ) : ¬ p.TakesRequestLine start (requestLineOf httpMethod []) := by
  rintro ⟨htakes, -⟩
  have hempty : MayBegin httpMethod [] := ⟨hmethod, Nat.zero_le _, by simp⟩
  have hok : (p.processRequestLine start (requestLineOf httpMethod [])).2 = .ok () := by
    rw [processRequestLine_lineOf hempty]
  obtain ⟨other, target, hbegin, hne, hsame⟩ := htakes.mp hok
  have hspace : ∀ m : Method, SP ∉ methodToString m := by
    intro m hmem
    exact ((methodToString_facts m).1 SP hmem).2 rfl
  have hfirst := congrArg (findByte SP) hsame
  rw [requestLineOf, requestLineOf, findByte_append (hspace _), findByte_append (hspace _),
    Option.some.injEq] at hfirst
  have hdrop := congrArg (List.drop ((methodToString httpMethod).length + 1)) hsame
  rw [requestLineOf, requestLineOf, ← List.drop_drop, List.drop_left, hfirst, ← List.drop_drop,
    List.drop_left, List.drop_one, List.drop_one, List.tail_cons, List.tail_cons] at hdrop
  -- the target that is not empty would have to begin with a space
  cases target with
  | nil => exact hne rfl
  | cons c rest =>
      rw [List.nil_append, List.cons_append, List.cons.injEq] at hdrop
      have hvisible := hbegin.2.2 c List.mem_cons_self
      rw [← hdrop.1] at hvisible
      exact absurd hvisible.1 (by decide)

/-- It does what is expected unless there is nothing between the two spaces. -/
theorem takesRequestLine_iff {p : Parser} {start : ℕ} {line : List Byte}
    (hline : line <+: p.buffer.drop start) :
    p.TakesRequestLine start line ↔
      ∀ httpMethod, httpMethod ≠ .unknown → line ≠ requestLineOf httpMethod [] := by
  constructor
  · rintro htakes httpMethod hmethod rfl
    exact not_takesRequestLine_empty hmethod p start htakes
  · intro hnonempty
    constructor
    · constructor
      · intro hok
        obtain ⟨httpMethod, target, hbegin, hsame⟩ := requestLineOf_of_ok hok
        refine ⟨httpMethod, target, hbegin, ?_, hsame⟩
        rintro rfl
        exact hnonempty httpMethod hbegin.1 hsame
      · rintro ⟨httpMethod, target, hbegin, -, rfl⟩
        rw [processRequestLine_lineOf hbegin]
    · rintro httpMethod target hbegin - rfl
      rw [processRequestLine_lineOf hbegin]
      exact ⟨rfl, read_target hline⟩

theorem takesRequestLine_get :
    ({ buffer := bytesOf "GET / HTTP/1.1" } : Parser).TakesRequestLine 0
      (bytesOf "GET / HTTP/1.1") := by
  apply (takesRequestLine_iff List.prefix_rfl).mpr
  intro httpMethod _
  cases httpMethod
  all_goals decide

/-- `GET`, two spaces and the version. -/
theorem emptyTarget_taken :
    let p : Parser := { buffer := bytesOf "GET  HTTP/1.1" }
    (p.processRequestLine 0 p.buffer).2 = .ok () ∧ ¬ p.TakesRequestLine 0 p.buffer := by
  constructor
  · decide
  · exact not_takesRequestLine_empty (show Method.get ≠ .unknown by decide) _ 0

end Parser

end Http
end Katana
