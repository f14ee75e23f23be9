import Katana.Library.BlockSearch
import Katana.Library.ReadWindow
import Katana.Serde.Escape
import Katana.Serde.ParseInt64

/-!
# The cursor as a pointer

`json_cursor` and the readers of single values as they move `ptr` in the text from
`start` to `end`.  Nothing in front of the place where a call began and nothing from
`end` on may be read.  The calls are not refused, and each does what the readers on
lists do; so `ptr` never moves back, and what they return lies in the part of the text
that has been read.  The depth of brackets is taken to stay in the range of `int`.
-/

namespace Katana
namespace Serde

open Library
open Http (Byte bytesOf isDigit digitValue fromChars)
open JsonCursor (endsScalar scanString skipNested)

structure StringView where
  offset : ℕ
  length : ℕ
  deriving DecidableEq

namespace PointerCursor

/-- `__SSE2__` is defined. -/
def hasSse2 : Build → Bool
  | .avx2 | .sse2 => true
  | .neon | .plain => false

def SIMD_THRESHOLD : ℕ := 8
def SIMD_WIDTH : ℕ := 16

section Pointers

variable (w : Window Byte) (build : Build)

/-! ## The methods of the cursor -/

/-- The scalar loop in front of the vector loop. -/
def quickSkip (scanPtr count : ℕ) : Option (ℕ × ℕ) :=
  if count < SIMD_THRESHOLD ∧ scanPtr < w.text.length then
    match w.read scanPtr with
    | none => none
    | some c =>
        if isJsonWhitespace c then quickSkip (scanPtr + 1) (count + 1) else some (scanPtr, count)
  else some (scanPtr, count)
termination_by w.text.length - scanPtr

/-- The lane of `is_ws` for a byte. -/
def wsLane (c : Byte) : Bool :=
  (c = 0x20 || c = 0x09) || (c = 0x0a || c = 0x0d)

/-- The vector loop and the scalar loop behind it. -/
def vectorSkip (ptr : ℕ) : Option ℕ :=
  if SIMD_WIDTH ≤ w.text.length - ptr then
    match w.load ptr SIMD_WIDTH with
    | none => none
    | some chunk =>
        let mask := movemask (chunk.map wsLane)
        if mask = 0 then w.skipWhile isJsonWhitespace ptr
        else if mask = 0xFFFF then vectorSkip (ptr + SIMD_WIDTH)
        -- the low 16 bits of the complement of the mask
        else some (ptr + ctz (0xFFFF - mask))
  else w.skipWhile isJsonWhitespace ptr
termination_by w.text.length - ptr
decreasing_by
  simp only [SIMD_WIDTH] at *
  omega

def skipWs (ptr : ℕ) : Option ℕ := do
  if w.atEnd ptr then return ptr
  let c ← w.read ptr
  if !isJsonWhitespace c then return ptr
  if hasSse2 build then
    let (scanPtr, count) ← quickSkip w ptr 0
    if count < SIMD_THRESHOLD then return scanPtr
    vectorSkip w scanPtr
  else w.skipWhile isJsonWhitespace ptr

def consume (c : Byte) (ptr : ℕ) : Option (Bool × ℕ) := do
  let ptr ← skipWs w build ptr
  if w.atEnd ptr then return (false, ptr)
  let d ← w.read ptr
  if d ≠ c then return (false, ptr)
  return (true, ptr + 1)

/-- The loop up to the closing quote. -/
def stringLoop (ptr : ℕ) : Option ℕ :=
  if ptr < w.text.length then
    match w.read ptr with
    | none => none
    | some c =>
        if c = QUOTE then some ptr
        else if c = BACKSLASH ∧ ptr + 1 < w.text.length then stringLoop (ptr + 2)
        else stringLoop (ptr + 1)
  else some ptr
termination_by w.text.length - ptr

def string (ptr : ℕ) : Option (Option StringView × ℕ) := do
  let ptr ← skipWs w build ptr
  if w.atEnd ptr then return (none, ptr)
  let c ← w.read ptr
  if c ≠ QUOTE then return (none, ptr)
  let stop ← stringLoop w (ptr + 1)
  if w.atEnd stop then return (none, stop)
  return (some ⟨ptr + 1, stop - (ptr + 1)⟩, stop + 1)

/-- The loop of `skip_value` behind an opening bracket.  The flag says that it is in the
loop over a string. -/
def nestedLoop (opening closing : Byte) (depth : ℕ) (inside : Bool) (ptr : ℕ) : Option ℕ :=
  if ptr < w.text.length ∧ (inside = true ∨ 0 < depth) then
    match w.read ptr with
    | none => none
    | some c =>
        if inside then
          if c = BACKSLASH ∧ ptr + 1 < w.text.length then
            nestedLoop opening closing depth true (ptr + 2)
          else nestedLoop opening closing depth (c ≠ QUOTE) (ptr + 1)
        else if c = QUOTE then nestedLoop opening closing depth true (ptr + 1)
        else if c = opening then nestedLoop opening closing (depth + 1) false (ptr + 1)
        else if c = closing then nestedLoop opening closing (depth - 1) false (ptr + 1)
        else nestedLoop opening closing depth false (ptr + 1)
  else some ptr
termination_by w.text.length - ptr

def skipValue (ptr : ℕ) : Option ℕ := do
  let ptr ← skipWs w build ptr
  if w.atEnd ptr then return ptr
  let ch ← w.read ptr
  if ch = OPEN_BRACE then nestedLoop w OPEN_BRACE CLOSE_BRACE 1 false (ptr + 1)
  else if ch = OPEN_BRACKET then nestedLoop w OPEN_BRACKET CLOSE_BRACKET 1 false (ptr + 1)
  else if ch = QUOTE then (string w build ptr).map Prod.snd
  else w.skipWhile (fun c => !endsScalar c) ptr

/-! ## Numbers -/

/-- The branch of the number readers for a string. -/
def fromString {β : Type} (convert : List Byte → Option β) (ptr : ℕ) : Option (Option β × ℕ) := do
  match ← string w build ptr with
  | (some sv, ptr) =>
      let text ← w.load sv.offset sv.length
      return (convert text, ptr)
  | (none, ptr) => return (none, ptr)

def parseSize (ptr : ℕ) : Option (Option ℕ × ℕ) := do
  let ptr ← skipWs w build ptr
  if w.atEnd ptr then return (none, ptr)
  let c ← w.read ptr
  if c = QUOTE then fromString w build (fun text => (fromChars 10 text).1) ptr
  else
    let bytes ← w.load ptr (w.text.length - ptr)
    match fromChars 10 bytes with
    | (some value, rest) => return (some value, ptr + (bytes.length - rest.length))
    | (none, _) => return (none, ptr)

/-- The loop over the digits, whose first byte has been looked at. -/
def digitLoop (val : UInt64) (p : ℕ) : Option (UInt64 × ℕ) :=
  match w.read p with
  | none => none
  | some c =>
      let d := c - 0x30
      if 9 < d then some (val, p)
      else if p + 1 < w.text.length then digitLoop (val * 10 + d.toUInt64) (p + 1)
      else some (val * 10 + d.toUInt64, p + 1)
termination_by w.text.length - p

def parseInt64 (ptr : ℕ) : Option (Option Int64 × ℕ) := do
  let ptr ← skipWs w build ptr
  if w.atEnd ptr then return (none, ptr)
  let c ← w.read ptr
  if c = QUOTE then fromString w build fromCharsInt64 ptr
  else
    let signed := c = 0x2d || c = 0x2b
    let p := if signed then ptr + 1 else ptr
    if signed && w.atEnd p then return (none, ptr)
    let first ← w.read p
    if 9 < first - 0x30 then return (none, ptr)
    let (val, p) ← digitLoop w 0 p
    return (toSigned (c = 0x2d) val, p)

/-- The loop over the digits and the point; nothing inside if there are too many. -/
def mantissaLoop (m : Mantissa) (p : ℕ) : Option (Option (Mantissa × ℕ)) :=
  if p < w.text.length then
    match w.read p with
    | none => none
    | some ch =>
        if isDigit 10 ch then
          if 15 ≤ m.digits then some none
          else mantissaLoop { m with
            mantissa := m.mantissa * 10 + digitValue ch
            digits := m.digits + 1
            fracDigits := if m.seenDot then m.fracDigits + 1 else m.fracDigits
            seenDigit := true } (p + 1)
        else if !m.seenDot && ch = 0x2e then mantissaLoop { m with seenDot := true } (p + 1)
        else some (some (m, p))
  else some (some (m, p))
termination_by w.text.length - p

def exponentLoop (value p : ℕ) : Option (Option (ℕ × ℕ)) :=
  if p < w.text.length then
    match w.read p with
    | none => none
    | some c =>
        if !isDigit 10 c then some (some (value, p))
        else if 100 < value then some none
        else exponentLoop (value * 10 + digitValue c) (p + 1)
  else some (some (value, p))
termination_by w.text.length - p

/-- The sign at a position. -/
def signAt (p : ℕ) : Option (Option Byte) := do
  if w.atEnd p then return none
  let c ← w.read p
  return if c = 0x2b || c = 0x2d then some c else none

def fastExponent (p : ℕ) : Option (Option (ℤ × ℕ)) := do
  if w.atEnd p then return some (0, p)
  let c ← w.read p
  if c = 0x65 || c = 0x45 then
    let sign ← signAt w (p + 1)
    let expPtr := if sign.isSome then p + 2 else p + 1
    if w.atEnd expPtr then return none
    let d ← w.read expPtr
    if !isDigit 10 d then return none
    let scanned ← exponentLoop w 0 expPtr
    return scanned.map fun result =>
      (if sign = some 0x2d then -(result.1 : ℤ) else result.1, result.2)
  else return some (0, p)

def fastDouble (m : Mantissa) (p : ℕ) : Option (Option (Float × ℕ)) := do
  if m.seenDot && m.fracDigits = 0 then return none
  match ← fastExponent w p with
  | none => return none
  | some (exponent, p) =>
      let value := Float.ofNat m.mantissa
      let value := if 0 < m.fracDigits then value * pow10 (-m.fracDigits) else value
      if exponent = 0 then return some (value, p)
      else if -18 ≤ exponent && exponent ≤ 18 then return some (value * pow10 exponent, p)
      else return none

def fallbackFromChars (start : ℕ) : Option (Option Float × ℕ) := do
  let bytes ← w.load start (w.text.length - start)
  match fromCharsDouble bytes with
  | some (v, rest) => return (some v, start + (bytes.length - rest.length))
  | none => return (none, start)

def parseDouble (ptr : ℕ) : Option (Option Float × ℕ) := do
  let start ← skipWs w build ptr
  if w.atEnd start then return (none, start)
  let c ← w.read start
  if c = QUOTE then fromString w build (fun text => (fromCharsDouble text).map (·.1)) start
  else
    let signed := c = 0x2d || c = 0x2b
    let p := if signed then start + 1 else start
    if signed && w.atEnd p then return (none, start)
    match ← mantissaLoop w {} p with
    | none => fallbackFromChars w start
    | some (m, p) =>
        if !m.seenDigit then return (none, start)
        match ← fastDouble w m p with
        | none => fallbackFromChars w start
        | some (value, p) => return (some (if c = 0x2d then -value else value), p)

/-! ## Other values -/

/-- The test of the length and `memcmp` at a position. -/
def literalAt (word : List Byte) (ptr : ℕ) : Option Bool :=
  if word.length ≤ w.text.length - ptr then (w.load ptr word.length).map (· = word)
  else some false

def viewIs (word : List Byte) (sv : StringView) : Option Bool :=
  if sv.length = word.length then (w.load sv.offset word.length).map (· = word)
  else some false

def trimFront (offset : ℕ) : ℕ → Option StringView
  | 0 => some ⟨offset, 0⟩
  | length + 1 =>
      match w.read offset with
      | none => none
      | some c =>
          if isJsonWhitespace c then trimFront (offset + 1) length
          else some ⟨offset, length + 1⟩

def trimBack (offset : ℕ) : ℕ → Option StringView
  | 0 => some ⟨offset, 0⟩
  | length + 1 =>
      match w.read (offset + length) with
      | none => none
      | some c =>
          if isJsonWhitespace c then trimBack offset length else some ⟨offset, length + 1⟩

def trimView (sv : StringView) : Option StringView := do
  let sv ← trimFront w sv.offset sv.length
  trimBack w sv.offset sv.length

def parseBool (ptr : ℕ) : Option (Option Bool × ℕ) := do
  let ptr ← skipWs w build ptr
  if w.atEnd ptr then return (none, ptr)
  if ← literalAt w (bytesOf "true") ptr then return (some true, ptr + 4)
  if ← literalAt w (bytesOf "false") ptr then return (some false, ptr + 5)
  let c ← w.read ptr
  if c ≠ QUOTE then return (none, ptr)
  match ← string w build ptr with
  | (some sv, ptr) =>
      let v ← trimView w sv
      if ← viewIs w (bytesOf "true") v then return (some true, ptr)
      if ← viewIs w (bytesOf "false") v then return (some false, ptr)
      return (none, ptr)
  | (none, ptr) => return (none, ptr)

def parseUnquotedString (ptr : ℕ) : Option (StringView × ℕ) := do
  let start ← skipWs w build ptr
  let stop ← w.skipWhile (fun c => !endsScalar c) start
  let sv ← trimView w ⟨start, stop - start⟩
  return (sv, stop)

end Pointers

/-! ## White space -/

section Refinement

variable {w : Window Byte} {cur : JsonCursor} (build : Build)

theorem wsLane_eq (c : Byte) : wsLane c = isJsonWhitespace c := by
  simp only [wsLane, isJsonWhitespace]
  cases decide (c = 0x20) <;> cases decide (c = 0x09) <;> simp

/-- The first loop stops at a byte that is not blank, or after a few that are. -/
theorem quickSkip_spec (h : w.Ahead cur) (count : ℕ) :
    ∃ rest count', quickSkip w (w.place cur) count = some (w.place rest, count') ∧
      rest <:+ cur ∧ rest.dropWhile isJsonWhitespace = cur.dropWhile isJsonWhitespace ∧
      (count' < SIMD_THRESHOLD → rest = cur.dropWhile isJsonWhitespace) := by
  induction cur generalizing count with
  | nil =>
    refine ⟨[], count, ?_, List.suffix_rfl, rfl, fun _ => rfl⟩
    rw [quickSkip, Window.place_nil, if_neg fun hmore => lt_irrefl _ hmore.2]
  | cons c rest ih =>
    rw [quickSkip]
    by_cases hcount : count < SIMD_THRESHOLD
    · rw [if_pos ⟨hcount, h.place_lt⟩, h.read_cons]
      dsimp only
      by_cases hblank : isJsonWhitespace c = true
      · obtain ⟨last, count', hskip, hsuffix, hdrop, hshort⟩ := ih h.tail (count + 1)
        rw [if_pos hblank, h.place_cons, List.dropWhile_cons_of_pos hblank]
        exact ⟨last, count', hskip, hsuffix.trans (List.suffix_cons c rest), hdrop, hshort⟩
      · rw [if_neg hblank]
        refine ⟨c :: rest, count, rfl, List.suffix_rfl, rfl, fun _ => ?_⟩
        rw [List.dropWhile_cons_of_neg hblank]
    · rw [if_neg fun hmore => hcount hmore.1]
      exact ⟨c :: rest, count, rfl, List.suffix_rfl, rfl, fun hless => absurd hless hcount⟩

/-- A mask that is not full says how many lanes in front are set. -/
theorem dropWhile_of_mask {test : Byte → Bool} {chunk : List Byte}
    (hmask : movemask (chunk.map test) ≠ 2 ^ chunk.length - 1) (rest : List Byte) :
    ctz (2 ^ chunk.length - 1 - movemask (chunk.map test)) < chunk.length ∧
      (chunk ++ rest).dropWhile test =
        (chunk ++ rest).drop (ctz (2 ^ chunk.length - 1 - movemask (chunk.map test))) := by
  have hsum := movemask_add_not (chunk.map test)
  rw [List.length_map] at hsum
  have hnot : 2 ^ chunk.length - 1 - movemask (chunk.map test) =
      movemask ((chunk.map test).map (!·)) := by omega
  have hmem : true ∈ (chunk.map test).map (!·) := by
    by_contra hnone
    rw [movemask_eq_zero_iff.mpr hnone] at hsum
    omega
  rw [hnot]
  obtain ⟨hat, hbefore⟩ := ctz_movemask hmem
  obtain ⟨hinside, hclear⟩ := List.getElem?_eq_some_iff.mp hat
  generalize ctz (movemask ((chunk.map test).map (!·))) = k at *
  simp only [List.length_map] at hinside
  refine ⟨hinside, ?_⟩
  rw [List.dropWhile_eq_drop_findIdx_not]
  congr 1
  rw [List.findIdx_eq (by rw [List.length_append]; omega)]
  constructor
  · simpa [List.getElem_append_left hinside] using hclear
  · intro j hj
    have hset := hbefore j hj
    rw [List.getElem_append_left (hj.trans hinside)]
    simpa [List.getElem?_eq_getElem (hj.trans hinside)] using hset

/-- The vector loop skips what the scalar loop would. -/
theorem vectorSkip_eq (h : w.Ahead cur) :
    vectorSkip w (w.place cur) = some (w.place (cur.dropWhile isJsonWhitespace)) := by
  induction hlength : cur.length using Nat.strong_induction_on generalizing cur with
  | _ length ih =>
    rw [vectorSkip, h.room]
    by_cases hwide : SIMD_WIDTH ≤ cur.length
    · have hne : cur ≠ [] := by
        rintro rfl
        cases hwide
      have hchunk : (cur.take SIMD_WIDTH).length = SIMD_WIDTH := by
        rw [List.length_take, Nat.min_eq_left hwide]
      have hfull : 2 ^ (cur.take SIMD_WIDTH).length - 1 = 0xFFFF := by
        rw [hchunk]
        rfl
      have hlanes : (cur.take SIMD_WIDTH).map wsLane =
          (cur.take SIMD_WIDTH).map isJsonWhitespace :=
        List.map_congr_left fun c _ => wsLane_eq c
      rw [if_pos hwide, h.load_take hne hwide]
      dsimp only
      rw [hlanes]
      split_ifs with hzero hall
      · exact h.skipWhile_eq isJsonWhitespace
      · have hblank : ∀ c ∈ cur.take SIMD_WIDTH, isJsonWhitespace c = true := by
          intro c hc
          by_contra hclear
          have hsum := movemask_add_not ((cur.take SIMD_WIDTH).map isJsonWhitespace)
          rw [List.length_map, hall, hchunk] at hsum
          have hnone : movemask (((cur.take SIMD_WIDTH).map isJsonWhitespace).map (!·)) = 0 := by
            have hpow : 2 ^ SIMD_WIDTH = 0x10000 := rfl
            omega
          rw [movemask_eq_zero_iff] at hnone
          apply hnone
          rw [List.map_map, List.mem_map]
          exact ⟨c, hc, by simpa using hclear⟩
        have hskip : cur.dropWhile isJsonWhitespace =
            (cur.drop SIMD_WIDTH).dropWhile isJsonWhitespace := by
          conv_lhs => rw [← List.take_append_drop SIMD_WIDTH cur]
          exact List.dropWhile_append_of_pos hblank
        rw [h.place_drop hwide, hskip]
        refine ih _ ?_ (h.suffix (List.drop_suffix _ _)) rfl
        rw [List.length_drop, SIMD_WIDTH] at *
        omega
      · rw [← hfull] at hall ⊢
        obtain ⟨hinside, hdrop⟩ := dropWhile_of_mask hall (cur.drop SIMD_WIDTH)
        rw [List.take_append_drop] at hdrop
        rw [hdrop, h.place_drop (by omega)]
    · rw [if_neg hwide]
      exact h.skipWhile_eq isJsonWhitespace

theorem skipWs_eq (h : w.Ahead cur) :
    skipWs w build (w.place cur) = some (w.place (JsonCursor.skipWs cur)) := by
  unfold skipWs JsonCursor.skipWs
  cases cur with
  | nil => simp
  | cons c rest =>
    by_cases hblank : isJsonWhitespace c = true
    · have hscalar := h.skipWhile_eq isJsonWhitespace
      obtain ⟨last, count, hquick, hsuffix, hdrop, hshort⟩ := quickSkip_spec h 0
      have hvector := vectorSkip_eq (h.suffix hsuffix)
      rw [hdrop] at hvector
      simp only [h.atEnd_cons, h.read_cons, hblank, hscalar, hquick, hvector, Bool.not_true,
        Bool.false_eq_true, if_false, Option.bind_eq_bind, Option.bind_some, pure]
      cases hasSse2 build with
      | false => rfl
      | true =>
        by_cases hcount : count < SIMD_THRESHOLD
        · simp [hcount, hshort hcount]
        · simp [hcount]
    · simp [h.atEnd_cons, h.read_cons, hblank]

theorem consume_eq (h : w.Ahead cur) (c : Byte) :
    consume w build c (w.place cur) =
      some ((JsonCursor.consume c cur).1, w.place (JsonCursor.consume c cur).2) := by
  have hws := h.suffix (JsonCursor.skipWs_suffix cur)
  unfold consume JsonCursor.consume
  rw [skipWs_eq build h]
  cases hskip : JsonCursor.skipWs cur with
  | nil => simp
  | cons d rest =>
    rw [hskip] at hws
    by_cases hd : d = c
    · subst hd
      simp [hws.atEnd_cons, hws.read_cons, hws.place_cons]
    · simp [hws.atEnd_cons, hws.read_cons, hd]

/-! ## Strings -/

/-- The loop stops at the closing quote, or at the end if there is none. -/
theorem stringLoop_eq (h : w.Ahead cur) :
    stringLoop w (w.place cur) = some (w.place (match scanString cur with
      | some (_, rest) => QUOTE :: rest
      | none => [])) := by
  induction cur using JsonCursor.scanString.induct with
  | case1 =>
    rw [stringLoop, Window.place_nil, if_neg (lt_irrefl _)]
    rfl
  | case2 rest =>
    rw [stringLoop, if_pos h.place_lt, h.read_cons, JsonCursor.scanString_quote]
    exact if_pos rfl
  | case3 =>
    have hlast : ¬w.place [BACKSLASH] + 1 < w.text.length := by
      rw [h.place_cons, Window.place_nil]
      exact lt_irrefl _
    rw [stringLoop, if_pos h.place_lt, h.read_cons]
    dsimp only
    rw [if_neg (by decide), if_neg fun hboth => hlast hboth.2, h.place_cons, stringLoop,
      Window.place_nil, if_neg (lt_irrefl _)]
    rfl
  | case4 d rest _ ih =>
    have hmore : w.place (BACKSLASH :: d :: rest) + 1 < w.text.length := by
      rw [h.place_cons]
      exact h.tail.place_lt
    rw [stringLoop, if_pos h.place_lt, h.read_cons]
    dsimp only
    rw [if_neg (by decide), if_pos ⟨rfl, hmore⟩, ← Nat.add_assoc _ 1 1, h.place_cons,
      h.tail.place_cons, ih h.tail.tail, JsonCursor.scanString_escape]
    cases scanString rest <;> rfl
  | case5 c rest hquote hbackslash ih =>
    rw [stringLoop, if_pos h.place_lt, h.read_cons]
    dsimp only
    rw [if_neg hquote, if_neg fun hboth => hbackslash hboth.1, h.place_cons, ih h.tail,
      JsonCursor.scanString_byte hquote hbackslash]
    cases scanString rest <;> rfl

/-- The view of a text that `rest` follows. -/
def viewOf (w : Window Byte) (text rest : List Byte) : StringView :=
  ⟨w.place (text ++ rest), text.length⟩

theorem place_sub {text rest : List Byte} (h : w.Ahead (text ++ rest)) :
    w.place rest - w.place (text ++ rest) = text.length := by
  have hle := h.length_le
  rw [List.length_append] at hle
  rw [Window.place, Window.place, List.length_append]
  omega

theorem string_eq (h : w.Ahead cur) :
    string w build (w.place cur) =
      some ((JsonCursor.string cur).1.map
        (fun text => viewOf w text (QUOTE :: (JsonCursor.string cur).2)),
        w.place (JsonCursor.string cur).2) := by
  have hws := h.suffix (JsonCursor.skipWs_suffix cur)
  unfold string JsonCursor.string
  rw [skipWs_eq build h]
  cases hskip : JsonCursor.skipWs cur with
  | nil => simp
  | cons c rest =>
    rw [hskip] at hws
    by_cases hc : c = QUOTE
    · subst hc
      have hloop := stringLoop_eq hws.tail
      cases hscan : scanString rest with
      | none =>
        rw [hscan] at hloop
        simp [hws.atEnd_cons, hws.read_cons, hws.place_cons, hloop, hscan]
      | some result =>
        rcases result with ⟨text, behind⟩
        have hsplit := JsonCursor.scanString_split hscan
        have hrest := hws.tail
        rw [hscan] at hloop
        rw [hsplit] at hrest
        have hstop := hrest.suffix (List.suffix_append text (QUOTE :: behind))
        have hview : w.place (QUOTE :: behind) - w.place rest = text.length := by
          rw [hsplit]
          exact place_sub hrest
        simp [hws.atEnd_cons, hws.read_cons, hws.place_cons, hloop, hscan, hstop.atEnd_cons,
          hstop.place_cons, hview, viewOf, ← hsplit]
    · simp [hws.atEnd_cons, hws.read_cons, hc]

/-! ## Values that are skipped -/

theorem nestedLoop_eq (opening closing : Byte) (inside : Bool) {depth : ℕ} (hdepth : 0 < depth)
    (h : w.Ahead cur) :
    nestedLoop w opening closing depth inside (w.place cur) =
      some (w.place (skipNested opening closing depth inside cur)) := by
  have hstep {c : Byte} {rest : List Byte} {depth : ℕ} {inside : Bool} (hdepth : 0 < depth)
      (h : w.Ahead (c :: rest)) :
      w.place (c :: rest) < w.text.length ∧ (inside = true ∨ 0 < depth) :=
    ⟨h.place_lt, .inr hdepth⟩
  induction depth, inside, cur using JsonCursor.skipNested.induct opening closing with
  | case1 depth inside =>
    rw [nestedLoop, Window.place_nil, if_neg fun hmore => lt_irrefl _ hmore.1,
      JsonCursor.skipNested.eq_def]
    rfl
  | case2 depth =>
    have hlast : ¬w.place [BACKSLASH] + 1 < w.text.length := by
      rw [h.place_cons, Window.place_nil]
      exact lt_irrefl _
    rw [nestedLoop, if_pos (hstep hdepth h), h.read_cons]
    simp only [hlast, and_false, if_true, if_false]
    rw [h.place_cons, nestedLoop, Window.place_nil, if_neg fun hmore => lt_irrefl _ hmore.1,
      JsonCursor.skipNested.eq_def]
    rfl
  | case3 depth d rest ih =>
    have hmore : w.place (BACKSLASH :: d :: rest) + 1 < w.text.length := by
      rw [h.place_cons]
      exact h.tail.place_lt
    rw [nestedLoop, if_pos (hstep hdepth h), h.read_cons]
    simp only [hmore, and_self, if_true]
    rw [← Nat.add_assoc _ 1 1, h.place_cons, h.tail.place_cons, ih hdepth h.tail.tail,
      JsonCursor.skipNested.eq_def _ _ _ _ (BACKSLASH :: d :: rest)]
    rfl
  | case4 depth c rest hc ih =>
    rw [nestedLoop, if_pos (hstep hdepth h), h.read_cons, JsonCursor.skipNested.eq_def]
    simp only [hc, false_and, if_true, if_false]
    rw [h.place_cons, ih hdepth h.tail]
  | case5 depth rest ih =>
    rw [nestedLoop, if_pos (hstep hdepth h), h.read_cons, JsonCursor.skipNested.eq_def]
    simp only [Bool.false_eq_true, if_true, if_false]
    rw [h.place_cons, ih hdepth h.tail]
  | case6 depth rest hquote ih =>
    rw [nestedLoop, if_pos (hstep hdepth h), h.read_cons, JsonCursor.skipNested.eq_def]
    simp only [hquote, Bool.false_eq_true, if_true, if_false]
    rw [h.place_cons, ih (Nat.succ_pos depth) h.tail]
  | case7 rest hquote hopening =>
    rw [nestedLoop, if_pos (hstep hdepth h), h.read_cons, JsonCursor.skipNested.eq_def]
    simp only [hquote, hopening, Bool.false_eq_true, if_true, if_false]
    rw [h.place_cons, nestedLoop, if_neg (by simp)]
  | case8 depth rest hone hquote hopening ih =>
    rw [nestedLoop, if_pos (hstep hdepth h), h.read_cons, JsonCursor.skipNested.eq_def]
    simp only [hquote, hopening, hone, Bool.false_eq_true, if_true, if_false]
    rw [h.place_cons, ih (by omega) h.tail]
  | case9 depth c rest hquote hopening hclosing ih =>
    rw [nestedLoop, if_pos (hstep hdepth h), h.read_cons, JsonCursor.skipNested.eq_def]
    simp only [hquote, hopening, hclosing, Bool.false_eq_true, if_false]
    rw [h.place_cons, ih hdepth h.tail]

theorem skipValue_eq (h : w.Ahead cur) :
    skipValue w build (w.place cur) = some (w.place (JsonCursor.skipValue cur)) := by
  have hws := h.suffix (JsonCursor.skipWs_suffix cur)
  unfold skipValue JsonCursor.skipValue
  rw [skipWs_eq build h]
  cases hskip : JsonCursor.skipWs cur with
  | nil => simp
  | cons c rest =>
    rw [hskip] at hws
    have hbraces := nestedLoop_eq OPEN_BRACE CLOSE_BRACE false Nat.one_pos hws.tail
    have hbrackets := nestedLoop_eq OPEN_BRACKET CLOSE_BRACKET false Nat.one_pos hws.tail
    have hstring := string_eq build hws
    have hscalar := hws.skipWhile_eq fun c => !endsScalar c
    simp only [hws.atEnd_cons, hws.read_cons, hws.place_cons, hbraces, hbrackets, hstring,
      hscalar, Option.bind_eq_bind, Option.bind_some, Bool.false_eq_true, if_false]
    split_ifs <;> rfl

/-! ## Numbers -/

theorem string_inside {text : List Byte} (htext : (JsonCursor.string cur).1 = some text) :
    text ++ QUOTE :: (JsonCursor.string cur).2 <:+ cur := by
  have hws := JsonCursor.skipWs_suffix cur
  rw [JsonCursor.string_split htext, List.cons_append] at hws
  exact (List.suffix_cons _ _).trans hws

theorem load_viewOf {text rest : List Byte} (h : w.Ahead (text ++ rest)) (hne : text ++ rest ≠ []) :
    w.load (viewOf w text rest).offset (viewOf w text rest).length = some text := by
  have hle : text.length ≤ (text ++ rest).length := by simp
  have hload := h.load_take hne hle
  rwa [List.take_left] at hload

theorem fromString_eq {β : Type} (convert : List Byte → Option β) (h : w.Ahead cur) :
    fromString w build convert (w.place cur) =
      some ((JsonCursor.string cur).1.bind convert, w.place (JsonCursor.string cur).2) := by
  rw [fromString, string_eq build h]
  cases htext : (JsonCursor.string cur).1 with
  | none => rfl
  | some text =>
    have hload := load_viewOf (h.suffix (string_inside htext)) (by simp)
    simp [hload]

theorem parseSize_eq (h : w.Ahead cur) :
    parseSize w build (w.place cur) =
      some ((Serde.parseSize cur).1, w.place (Serde.parseSize cur).2) := by
  have hws := h.suffix (JsonCursor.skipWs_suffix cur)
  unfold parseSize Serde.parseSize
  rw [skipWs_eq build h]
  cases hskip : JsonCursor.skipWs cur with
  | nil => simp
  | cons c rest =>
    rw [hskip] at hws
    by_cases hc : c = QUOTE
    · subst hc
      have hstring := fromString_eq build (fun text => (fromChars 10 text).1) hws
      simp only [hws.atEnd_cons, hws.read_cons, hstring, Option.bind_eq_bind,
        Option.bind_some, Bool.false_eq_true, if_true, if_false]
      rcases JsonCursor.string (QUOTE :: rest) with ⟨text | text, behind⟩ <;> rfl
    · have hsuffix := fromChars_suffix 10 (c :: rest)
      simp only [hws.atEnd_cons, hws.read_cons, hws.load_rest, hc, Option.bind_eq_bind,
        Option.bind_some, Bool.false_eq_true, if_false]
      rcases hchars : fromChars 10 (c :: rest) with ⟨value | value, behind⟩
      · rfl
      · rw [hchars] at hsuffix
        simp only [hws.place_suffix hsuffix]
        rfl

theorem digitLoop_eq (val : UInt64) {c : Byte} {rest : List Byte} (h : w.Ahead (c :: rest)) :
    digitLoop w val (w.place (c :: rest)) =
      some ((accumulate val (c :: rest)).1, w.place (accumulate val (c :: rest)).2) := by
  induction rest generalizing val c with
  | nil =>
    have hlast : ¬w.place [c] + 1 < w.text.length := by
      rw [h.place_cons, Window.place_nil]
      exact lt_irrefl _
    rw [digitLoop, h.read_cons, accumulate]
    simp only [hlast, if_false]
    split_ifs
    · rfl
    · rw [h.place_cons]
      rfl
  | cons d rest ih =>
    have hmore : w.place (c :: d :: rest) + 1 < w.text.length := by
      rw [h.place_cons]
      exact h.tail.place_lt
    rw [digitLoop, h.read_cons, accumulate]
    simp only [hmore, if_true]
    split_ifs
    · rfl
    · rw [h.place_cons, ih _ h.tail]

theorem parseInt64_eq (h : w.Ahead cur) :
    parseInt64 w build (w.place cur) =
      some ((Serde.parseInt64 cur).1, w.place (Serde.parseInt64 cur).2) := by
  have hws := h.suffix (JsonCursor.skipWs_suffix cur)
  unfold parseInt64 Serde.parseInt64
  rw [skipWs_eq build h]
  cases hskip : JsonCursor.skipWs cur with
  | nil => simp
  | cons c rest =>
    rw [hskip] at hws
    by_cases hc : c = QUOTE
    · subst hc
      have hstring := fromString_eq build fromCharsInt64 hws
      simp only [hws.atEnd_cons, hws.read_cons, hstring, Option.bind_eq_bind,
        Option.bind_some, Bool.false_eq_true, if_true, if_false]
      rcases JsonCursor.string (QUOTE :: rest) with ⟨text | text, behind⟩ <;> rfl
    · have hunsigned : w.Ahead (if c = 0x2d || c = 0x2b then rest else c :: rest) := by
        split
        · exact hws.tail
        · exact hws
      have hplace : (if c = 0x2d || c = 0x2b then w.place (c :: rest) + 1
          else w.place (c :: rest)) =
          w.place (if c = 0x2d || c = 0x2b then rest else c :: rest) := by
        rw [hws.place_cons]
        exact (apply_ite w.place _ _ _).symm
      simp only [hws.atEnd_cons, hws.read_cons, hc, hplace, Option.bind_eq_bind,
        Option.bind_some, Bool.false_eq_true, if_false]
      cases hbytes : (if c = 0x2d || c = 0x2b then rest else c :: rest) with
      | nil =>
        have hsigned : (c = 0x2d || c = 0x2b) = true := by
          by_contra hnot
          rw [if_neg hnot] at hbytes
          cases hbytes
        simp [hsigned]
      | cons d digits =>
        rw [hbytes] at hunsigned
        have hloop := digitLoop_eq 0 hunsigned
        simp only [hunsigned.atEnd_cons, hunsigned.read_cons, hloop, Bool.and_false,
          Option.bind_some, Bool.false_eq_true, if_false]
        split_ifs <;> rfl

/-! ## Floating point numbers -/

theorem mantissaLoop_eq (m : Mantissa) (h : w.Ahead cur) :
    mantissaLoop w m (w.place cur) =
      some ((scanMantissa m cur).map fun scanned => (scanned.1, w.place scanned.2)) := by
  induction cur generalizing m with
  | nil =>
    rw [mantissaLoop, Window.place_nil, if_neg (lt_irrefl _), scanMantissa]
    rfl
  | cons c rest ih =>
    rw [mantissaLoop, if_pos h.place_lt, h.read_cons, scanMantissa, h.place_cons]
    dsimp only
    rw [ih _ h.tail, ih _ h.tail]
    split_ifs <;> rfl

theorem exponentLoop_eq (value : ℕ) (h : w.Ahead cur) :
    exponentLoop w value (w.place cur) =
      some ((scanExponent value cur).map fun scanned => (scanned.1, w.place scanned.2)) := by
  induction cur generalizing value with
  | nil =>
    rw [exponentLoop, Window.place_nil, if_neg (lt_irrefl _), scanExponent]
    rfl
  | cons c rest ih =>
    rw [exponentLoop, if_pos h.place_lt, h.read_cons, scanExponent, h.place_cons]
    dsimp only
    rw [ih _ h.tail]
    split_ifs <;> rfl

theorem signAt_eq (h : w.Ahead cur) :
    signAt w (w.place cur) = some (cur.head?.filter fun c => c = 0x2b || c = 0x2d) := by
  cases cur with
  | nil => simp [signAt]
  | cons c rest =>
    simp only [signAt, h.atEnd_cons, h.read_cons, List.head?_cons, Option.filter_some,
      Option.bind_eq_bind, Option.bind_some, Bool.false_eq_true, if_false]
    rfl

theorem fastExponent_eq (h : w.Ahead cur) :
    fastExponent w (w.place cur) =
      some ((Serde.fastExponent cur).map fun scanned => (scanned.1, w.place scanned.2)) := by
  unfold fastExponent Serde.fastExponent
  cases cur with
  | nil => simp
  | cons c rest =>
    simp only [h.atEnd_cons, h.read_cons, h.place_cons, signAt_eq h.tail, Option.bind_eq_bind,
      Option.bind_some, Bool.false_eq_true, if_false]
    by_cases hc : (c = 0x65 || c = 0x45) = true
    · have hdropped := h.tail.suffix (dropSign_suffix rest)
      have hplace : (if (rest.head?.filter fun c => c = 0x2b || c = 0x2d).isSome
          then w.place (c :: rest) + 2 else w.place rest) = w.place (dropSign rest) := by
        cases rest with
        | nil => rfl
        | cons s tail =>
          rw [← Nat.add_assoc _ 1 1, h.place_cons, h.tail.place_cons, dropSign,
            List.head?_cons, Option.filter_some]
          by_cases hs : (s = 0x2b || s = 0x2d) = true
          · simp only [hs, if_true, Option.isSome_some, Option.some.injEq, List.tail_cons]
          · simp only [hs, Option.isSome_none, Option.some.injEq, Bool.false_eq_true, if_false]
      have hminus : (rest.head?.filter fun c => c = 0x2b || c = 0x2d) = some 0x2d ↔
          rest.head? = some 0x2d := by
        rw [Option.filter_eq_some_iff]
        exact and_iff_left rfl
      rw [if_pos hc, if_pos hc, hplace]
      cases hsigned : dropSign rest with
      | nil => simp
      | cons d digits =>
        rw [hsigned] at hdropped
        have hloop := exponentLoop_eq 0 hdropped
        by_cases hd : isDigit 10 d = true
        · simp only [hdropped.atEnd_cons, hdropped.read_cons, hloop, hd, hminus, Bool.not_true,
            List.takeWhile_cons_of_pos, List.isEmpty_cons, Option.bind_some, Option.map_map,
            Bool.false_eq_true, if_false]
          rfl
        · simp [hdropped.atEnd_cons, hdropped.read_cons, hd]
    · rw [if_neg hc, if_neg hc]
      rfl

theorem fastDouble_eq (m : Mantissa) (h : w.Ahead cur) :
    fastDouble w m (w.place cur) =
      some ((Serde.fastDouble m cur).map fun scanned => (scanned.1, w.place scanned.2)) := by
  unfold fastDouble Serde.fastDouble
  rw [fastExponent_eq h]
  by_cases hpoint : (m.seenDot && m.fracDigits = 0) = true
  · rw [if_pos hpoint, if_pos hpoint]
    rfl
  · rw [if_neg hpoint, if_neg hpoint]
    cases Serde.fastExponent cur with
    | none => rfl
    | some result =>
      simp only [Option.map_some, Option.bind_eq_bind, Option.bind_some]
      split_ifs <;> rfl

/-- The result of `from_chars`, or nothing at the same place. -/
theorem fallbackFromChars_eq {c : Byte} {rest : List Byte} (h : w.Ahead (c :: rest)) :
    fallbackFromChars w (w.place (c :: rest)) =
      some (match fromCharsDouble (c :: rest) with
        | some (value, behind) => (some value, w.place behind)
        | none => (none, w.place (c :: rest))) := by
  unfold fallbackFromChars
  rw [h.load_rest, Option.bind_eq_bind, Option.bind_some]
  cases hchars : fromCharsDouble (c :: rest) with
  | none => rfl
  | some result =>
    have hplace := h.place_suffix (fromCharsDouble_suffix hchars)
    dsimp only
    rw [hplace]
    rfl

theorem parseDouble_eq (h : w.Ahead cur) :
    parseDouble w build (w.place cur) =
      some ((Serde.parseDouble cur).1, w.place (Serde.parseDouble cur).2) := by
  have hws := h.suffix (JsonCursor.skipWs_suffix cur)
  unfold parseDouble Serde.parseDouble
  rw [skipWs_eq build h]
  cases hskip : JsonCursor.skipWs cur with
  | nil => simp
  | cons c rest =>
    rw [hskip] at hws
    by_cases hc : c = QUOTE
    · subst hc
      have hstring := fromString_eq build (fun text => (fromCharsDouble text).map (·.1)) hws
      simp only [hws.atEnd_cons, hws.read_cons, hstring, Option.bind_eq_bind,
        Option.bind_some, Bool.false_eq_true, if_true, if_false]
      rcases JsonCursor.string (QUOTE :: rest) with ⟨text | text, behind⟩ <;> rfl
    · have hunsigned : w.Ahead (if c = 0x2d || c = 0x2b then rest else c :: rest) := by
        split
        · exact hws.tail
        · exact hws
      have hplace : (if c = 0x2d || c = 0x2b then w.place (c :: rest) + 1
          else w.place (c :: rest)) =
          w.place (if c = 0x2d || c = 0x2b then rest else c :: rest) := by
        rw [hws.place_cons]
        exact (apply_ite w.place _ _ _).symm
      have hfallback := fallbackFromChars_eq hws
      simp only [hws.atEnd_cons, hws.read_cons, hc, hplace, Option.bind_eq_bind,
        Option.bind_some, Bool.false_eq_true, if_false]
      cases hbytes : (if c = 0x2d || c = 0x2b then rest else c :: rest) with
      | nil =>
        have hsigned : (c = 0x2d || c = 0x2b) = true := by
          by_contra hnot
          rw [if_neg hnot] at hbytes
          cases hbytes
        simp [hsigned, scanMantissa]
      | cons d digits =>
        rw [hbytes] at hunsigned
        have hloop := mantissaLoop_eq {} hunsigned
        simp only [hunsigned.atEnd_cons, hloop, Bool.and_false, Option.bind_some,
          Bool.false_eq_true, if_false]
        cases hscan : scanMantissa {} (d :: digits) with
        | none =>
          simp only [Option.map_none, hfallback]
          cases fromCharsDouble (c :: rest) <;> rfl
        | some scanned =>
          rcases scanned with ⟨m, behind⟩
          have hfast := fastDouble_eq m (hunsigned.suffix (scanMantissa_suffix hscan))
          simp only [Option.map_some, hfast, Option.bind_some]
          cases m.seenDigit with
          | false => rfl
          | true =>
            cases Serde.fastDouble m behind with
            | none =>
              simp only [Option.map_none, hfallback]
              cases fromCharsDouble (c :: rest) <;> rfl
            | some result => rfl

/-! ## Literals and plain text -/

theorem literalAt_eq (word : List Byte) {c : Byte} {rest : List Byte} (h : w.Ahead (c :: rest)) :
    literalAt w word (w.place (c :: rest)) =
      some (decide ((c :: rest).take word.length = word)) := by
  unfold literalAt
  rw [h.room]
  split
  next hlong => rw [h.load_take (List.cons_ne_nil c rest) hlong, Option.map_some]
  next hshort =>
    have hne : (c :: rest).take word.length ≠ word := by
      intro hsame
      have hlength := congrArg List.length hsame
      rw [List.length_take] at hlength
      omega
    rw [decide_eq_false hne]

theorem viewIs_eq {word text rest : List Byte} (h : w.Ahead (text ++ rest)) (hword : word ≠ []) :
    viewIs w word (viewOf w text rest) = some (decide (text = word)) := by
  unfold viewIs
  split
  next hlength =>
    have hsame : text.length = word.length := hlength
    have hne : text ++ rest ≠ [] := by
      intro hnil
      have hpos := List.length_pos_iff.mpr hword
      rw [(List.append_eq_nil_iff.mp hnil).1, List.length_nil] at hsame
      omega
    rw [← hsame, show text.length = (viewOf w text rest).length from rfl, load_viewOf h hne,
      Option.map_some]
  next hlength =>
    have hne : text ≠ word := fun hsame => hlength (congrArg List.length hsame)
    rw [decide_eq_false hne]

theorem trimFront_eq (text rest : List Byte) (h : w.Ahead (text ++ rest)) :
    trimFront w (w.place (text ++ rest)) text.length =
      some (viewOf w (text.dropWhile isJsonWhitespace) rest) := by
  induction text with
  | nil => rfl
  | cons c text ih =>
    rw [List.cons_append] at h ⊢
    rw [List.length_cons, trimFront, h.read_cons]
    by_cases hblank : isJsonWhitespace c = true
    · rw [List.dropWhile_cons_of_pos hblank, ← ih h.tail, ← h.place_cons]
      exact if_pos hblank
    · rw [List.dropWhile_cons_of_neg hblank]
      exact if_neg hblank

/-- Trimming at the back leaves the offset where it is. -/
theorem trimBack_eq (text rest : List Byte) (h : w.Ahead (text ++ rest)) :
    trimBack w (w.place (text ++ rest)) text.length =
      some ⟨w.place (text ++ rest), (text.rdropWhile isJsonWhitespace).length⟩ := by
  induction text using List.reverseRecOn generalizing rest with
  | nil => rfl
  | append_singleton front c ih =>
    have hcut : front ++ [c] ++ rest = front ++ c :: rest := by simp
    rw [hcut] at h ⊢
    have hat : w.place (front ++ c :: rest) + front.length = w.place (c :: rest) := by
      rw [h.place_drop (by simp), List.drop_left]
    have hlast := (h.suffix (List.suffix_append front (c :: rest))).read_cons
    rw [List.length_append, List.length_singleton, trimBack, hat, hlast]
    by_cases hblank : isJsonWhitespace c = true
    · rw [List.rdropWhile_concat_pos _ _ _ hblank, ← ih (c :: rest) h]
      exact if_pos hblank
    · rw [List.rdropWhile_concat_neg _ _ _ hblank, List.length_append, List.length_singleton]
      exact if_neg hblank

/-- The trimmed view, and what follows it. -/
theorem trimView_eq {text rest : List Byte} (h : w.Ahead (text ++ rest)) :
    ∃ behind, trimView w (viewOf w text rest) = some (viewOf w (Serde.trimView text) behind) ∧
      Serde.trimView text ++ behind <:+ text ++ rest ∧ rest <:+ behind := by
  have hfront : text.dropWhile isJsonWhitespace ++ rest <:+ text ++ rest := by
    obtain ⟨blanks, hblanks⟩ := List.dropWhile_suffix (l := text) isJsonWhitespace
    refine ⟨blanks, ?_⟩
    rw [← List.append_assoc, hblanks]
  have hfirst := trimFront_eq text rest h
  have hlast := trimBack_eq _ rest (h.suffix hfront)
  have hsplit : Serde.trimView text ++
      ((text.dropWhile isJsonWhitespace).rtakeWhile isJsonWhitespace ++ rest) =
        text.dropWhile isJsonWhitespace ++ rest := by
    rw [← List.append_assoc]
    exact congrArg (· ++ rest) List.rdropWhile_append_rtakeWhile
  refine ⟨(text.dropWhile isJsonWhitespace).rtakeWhile isJsonWhitespace ++ rest, ?_, ?_, ?_⟩
  · unfold trimView
    rw [show (viewOf w text rest).offset = w.place (text ++ rest) from rfl,
      show (viewOf w text rest).length = text.length from rfl, hfirst, Option.bind_eq_bind,
      Option.bind_some]
    refine hlast.trans ?_
    rw [viewOf, hsplit]
    rfl
  · rw [hsplit]
    exact hfront
  · exact List.suffix_append _ _

theorem parseBool_eq (h : w.Ahead cur) :
    parseBool w build (w.place cur) =
      some ((Serde.parseBool cur).1, w.place (Serde.parseBool cur).2) := by
  have hws := h.suffix (JsonCursor.skipWs_suffix cur)
  unfold parseBool Serde.parseBool
  rw [skipWs_eq build h]
  cases hskip : JsonCursor.skipWs cur with
  | nil => simp
  | cons c rest =>
    rw [hskip] at hws
    have htrue := literalAt_eq (bytesOf "true") hws
    have hfalse := literalAt_eq (bytesOf "false") hws
    simp only [hws.atEnd_cons, hws.read_cons, htrue, hfalse, Option.bind_eq_bind,
      Option.bind_some, Bool.false_eq_true, if_false, decide_eq_true_eq, List.isEmpty_cons]
    have hplace (word : List Byte) (hword : (c :: rest).take word.length = word) :
        w.place (c :: rest) + word.length = w.place ((c :: rest).drop word.length) := by
      apply hws.place_drop
      rw [← hword, List.length_take]
      omega
    rw [show (bytesOf "true").length = 4 from rfl, show (bytesOf "false").length = 5 from rfl]
    by_cases hisTrue : (c :: rest).take 4 = bytesOf "true"
    · have hbehind : w.place (c :: rest) + 4 = w.place ((c :: rest).drop 4) :=
        hplace (bytesOf "true") hisTrue
      rw [if_pos hisTrue, if_pos hisTrue, hbehind]
      rfl
    rw [if_neg hisTrue, if_neg hisTrue]
    by_cases hisFalse : (c :: rest).take 5 = bytesOf "false"
    · have hbehind : w.place (c :: rest) + 5 = w.place ((c :: rest).drop 5) :=
        hplace (bytesOf "false") hisFalse
      rw [if_pos hisFalse, if_pos hisFalse, hbehind]
      rfl
    rw [if_neg hisFalse, if_neg hisFalse]
    by_cases hc : c = QUOTE
    · subst hc
      have hstring := string_eq build hws
      rw [List.head?_cons, if_neg (not_not.mpr rfl), if_pos rfl, hstring, Option.bind_some]
      cases htext : (JsonCursor.string (QUOTE :: rest)).1 with
      | none =>
        rw [show JsonCursor.string (QUOTE :: rest) =
          (none, (JsonCursor.string (QUOTE :: rest)).2) from Prod.ext htext rfl]
        rfl
      | some text =>
        have hbetween := hws.suffix (string_inside htext)
        obtain ⟨behind, htrim, hinside, -⟩ := trimView_eq hbetween
        have hview := hbetween.suffix hinside
        have hviewTrue := viewIs_eq hview (show bytesOf "true" ≠ [] by decide)
        have hviewFalse := viewIs_eq hview (show bytesOf "false" ≠ [] by decide)
        rw [show JsonCursor.string (QUOTE :: rest) =
          (some text, (JsonCursor.string (QUOTE :: rest)).2) from Prod.ext htext rfl]
        simp only [Option.map_some, htrim, hviewTrue, hviewFalse, Option.bind_some,
          decide_eq_true_eq]
        split_ifs <;> rfl
    · rw [List.head?_cons, if_pos hc, if_neg fun hsame => hc (Option.some.inj hsame)]
      rfl

theorem parseUnquotedString_eq (h : w.Ahead cur) :
    ∃ behind, parseUnquotedString w build (w.place cur) =
      some (viewOf w (Serde.parseUnquotedString cur).1 behind,
        w.place (Serde.parseUnquotedString cur).2) ∧
      (Serde.parseUnquotedString cur).1 ++ behind <:+ cur ∧
      (Serde.parseUnquotedString cur).2 <:+ behind := by
  have hws := h.suffix (JsonCursor.skipWs_suffix cur)
  have hsplit := List.takeWhile_append_dropWhile (p := fun c => !endsScalar c)
    (l := JsonCursor.skipWs cur)
  have hstop := hws.skipWhile_eq fun c => !endsScalar c
  rw [← hsplit] at hws
  obtain ⟨behind, htrim, hinside, hbehind⟩ := trimView_eq hws
  refine ⟨behind, ?_, ?_, hbehind⟩
  · have hview : (⟨w.place (JsonCursor.skipWs cur),
        w.place ((JsonCursor.skipWs cur).dropWhile fun c => !endsScalar c) -
          w.place (JsonCursor.skipWs cur)⟩ : StringView) =
        viewOf w ((JsonCursor.skipWs cur).takeWhile fun c => !endsScalar c)
          ((JsonCursor.skipWs cur).dropWhile fun c => !endsScalar c) := by
      have hlength := place_sub hws
      rw [hsplit] at hlength
      rw [viewOf, hsplit, hlength]
    unfold parseUnquotedString
    rw [skipWs_eq build h, Option.bind_eq_bind, Option.bind_some, hstop, Option.bind_eq_bind,
      Option.bind_some, hview, htrim]
    rfl
  · rw [hsplit] at hinside
    exact hinside.trans (JsonCursor.skipWs_suffix cur)

/-! ## Forward and in bounds -/

theorem accumulate_suffix (val : UInt64) (bytes : List Byte) :
    (accumulate val bytes).2 <:+ bytes := by
  induction bytes generalizing val with
  | nil => exact List.suffix_rfl
  | cons c rest ih =>
    rw [accumulate]
    split
    · exact List.suffix_rfl
    · exact (ih _).trans (List.suffix_cons c rest)

theorem parseInt64_suffix (cur : JsonCursor) : (Serde.parseInt64 cur).2 <:+ cur := by
  have hws := JsonCursor.skipWs_suffix cur
  unfold Serde.parseInt64
  split
  next => exact List.nil_suffix
  next c rest heq =>
    rw [heq] at hws
    split
    next =>
      have hstring := JsonCursor.string_suffix (c :: rest)
      split <;> rename_i hresult <;> rw [hresult] at hstring <;> exact hstring.trans hws
    next =>
      split
      next => exact hws
      next d digits hbytes =>
        have hunsigned : d :: digits <:+ c :: rest := by
          rw [← hbytes]
          split
          · exact List.suffix_cons c rest
          · exact List.suffix_rfl
        split
        · exact hws
        · exact ((accumulate_suffix 0 (d :: digits)).trans hunsigned).trans hws

end Refinement

/-- No read is refused, and `ptr` ends between its old place and `end`. -/
def Forward (text : List Byte) (ptr : ℕ) (call : Option ℕ) : Prop :=
  ∃ next, call = some next ∧ ptr ≤ next ∧ next ≤ text.length

/-- The view lies between the old and the new place of `ptr`. -/
def Within (ptr next : ℕ) (sv : StringView) : Prop :=
  ptr ≤ sv.offset ∧ sv.offset + sv.length ≤ next

theorem within_viewOf {w : Window Byte} {cur : JsonCursor} (h : w.Ahead cur)
    {text behind rest : List Byte} (hinside : text ++ behind <:+ cur) (hrest : rest <:+ behind) :
    Within (w.place cur) (w.place rest) (viewOf w text behind) := by
  have hview := h.suffix hinside
  refine ⟨Window.place_le_place hinside, ?_⟩
  show w.place (text ++ behind) + text.length ≤ w.place rest
  rw [hview.place_drop (by simp), List.drop_left]
  exact Window.place_le_place hrest

section Calls

variable (build : Build) (text : List Byte)

/-- The cursor moves forward only and stays in bounds, on every text. -/
theorem cursor_forward {ptr : ℕ} (hptr : ptr ≤ text.length) :
    Forward text ptr (skipWs ⟨text, ptr⟩ build ptr) ∧
      (∀ c, Forward text ptr ((consume ⟨text, ptr⟩ build c ptr).map Prod.snd)) ∧
      Forward text ptr ((string ⟨text, ptr⟩ build ptr).map Prod.snd) ∧
      Forward text ptr (skipValue ⟨text, ptr⟩ build ptr) ∧
      Forward text ptr ((parseSize ⟨text, ptr⟩ build ptr).map Prod.snd) ∧
      Forward text ptr ((parseInt64 ⟨text, ptr⟩ build ptr).map Prod.snd) ∧
      Forward text ptr ((parseDouble ⟨text, ptr⟩ build ptr).map Prod.snd) ∧
      Forward text ptr ((parseBool ⟨text, ptr⟩ build ptr).map Prod.snd) ∧
      Forward text ptr ((parseUnquotedString ⟨text, ptr⟩ build ptr).map Prod.snd) ∧
      (∀ sv next, string ⟨text, ptr⟩ build ptr = some (some sv, next) → Within ptr next sv) ∧
      ∀ sv next, parseUnquotedString ⟨text, ptr⟩ build ptr = some (sv, next) →
        Within ptr next sv := by
  have h := Window.ahead_drop text ptr
  have hplace := Window.place_drop_low hptr
  have hforward {rest : JsonCursor} (hrest : rest <:+ text.drop ptr) :
      Forward text ptr (some ((Window.mk text ptr).place rest)) := by
    refine ⟨_, rfl, ?_, Window.place_le rest⟩
    have hle := Window.place_le_place (w := ⟨text, ptr⟩) hrest
    rwa [hplace] at hle
  have hskip := skipWs_eq build h
  have hconsume := consume_eq build h
  have hstring := string_eq build h
  have hvalue := skipValue_eq build h
  have hsize := parseSize_eq build h
  have hint := parseInt64_eq build h
  have hdouble := parseDouble_eq build h
  have hbool := parseBool_eq build h
  obtain ⟨behind, hplain, hinside, hbehind⟩ := parseUnquotedString_eq build h
  have hviews := within_viewOf h hinside hbehind
  rw [hplace] at hskip hstring hvalue hsize hint hdouble hbool hplain hviews
  simp only [hplace] at hconsume
  rw [hskip, hstring, hvalue, hsize, hint, hdouble, hbool, hplain]
  refine ⟨hforward (JsonCursor.skipWs_suffix _), fun c => ?_,
    hforward (JsonCursor.string_suffix _), hforward (JsonCursor.skipValue_suffix _),
    hforward (parseSize_suffix _), hforward (parseInt64_suffix _),
    hforward (parseDouble_suffix _), hforward (parseBool_suffix _),
    hforward (parseUnquotedString_suffix _), ?_, ?_⟩
  · rw [hconsume]
    exact hforward (JsonCursor.consume_suffix c _)
  · intro sv next heq
    cases htext : (JsonCursor.string (text.drop ptr)).1 with
    | none =>
      rw [htext] at heq
      cases heq
    | some found =>
      rw [htext] at heq
      cases heq
      have hview := within_viewOf h (string_inside htext) (List.suffix_cons QUOTE _)
      rwa [hplace] at hview
  · intro sv next heq
    cases heq
    exact hviews

end Calls

/-- A string that ends behind a backslash, with text in front of the cursor. -/
theorem cursor_forward_cut :
    Forward (bytesOf "[ \"a\\") 1
      ((string ⟨bytesOf "[ \"a\\", 1⟩ .sse2 1).map Prod.snd) :=
  (cursor_forward .sse2 (bytesOf "[ \"a\\") (by decide)).2.2.1

end PointerCursor

end Serde
end Katana
