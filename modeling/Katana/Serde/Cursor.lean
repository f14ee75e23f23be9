import Katana.Http.CaseFolding

/-!
# The JSON cursor

`json_cursor` and the readers of single values.  A cursor is given by the bytes
between its `ptr` and its `end`, so moving it forward means dropping bytes, and a
`string_view` of the text is the list of its bytes.  Numbers of type `double` are
values of `Float`.
-/

namespace Katana
namespace Serde

open Http (Byte bytesOf isDigit digitValue numeralValue fromChars asciiLower)

def QUOTE : Byte := 0x22
def BACKSLASH : Byte := 0x5c
def COMMA : Byte := 0x2c
def COLON : Byte := 0x3a
def OPEN_BRACE : Byte := 0x7b
def CLOSE_BRACE : Byte := 0x7d
def OPEN_BRACKET : Byte := 0x5b
def CLOSE_BRACKET : Byte := 0x5d

/-- The entries of `is_json_whitespace_table`. -/
def isJsonWhitespace (c : Byte) : Bool :=
  c = 0x09 || c = 0x0a || c = 0x0d || c = 0x20

def trimView (sv : List Byte) : List Byte :=
  (sv.dropWhile isJsonWhitespace).rdropWhile isJsonWhitespace

/-- The bytes from `ptr` to `end`. -/
abbrev JsonCursor := List Byte

namespace JsonCursor

def skipWs (cur : JsonCursor) : JsonCursor :=
  cur.dropWhile isJsonWhitespace

/-- White space is skipped even if the byte is not there. -/
def consume (c : Byte) (cur : JsonCursor) : Bool × JsonCursor :=
  match skipWs cur with
  | [] => (false, [])
  | d :: rest => if d = c then (true, rest) else (false, d :: rest)

/-- From behind an opening quote: the text up to the closing quote, and what
follows it. -/
def scanString : List Byte → Option (List Byte × List Byte)
  | [] => none
  | c :: rest =>
      if c = QUOTE then some ([], rest)
      else if c = BACKSLASH then
        match rest with
        | [] => none
        | d :: rest => (scanString rest).map fun result => (c :: d :: result.1, result.2)
      else (scanString rest).map fun result => (c :: result.1, result.2)

@[simp] theorem scanString_quote (rest : List Byte) :
    scanString (QUOTE :: rest) = some ([], rest) := by
  rw [scanString.eq_def]
  simp

@[simp] theorem scanString_escape (c : Byte) (rest : List Byte) :
    scanString (BACKSLASH :: c :: rest) =
      (scanString rest).map fun result => (BACKSLASH :: c :: result.1, result.2) := by
  rw [scanString.eq_def]
  simp [BACKSLASH, QUOTE]

theorem scanString_byte {c : Byte} (hquote : c ≠ QUOTE) (hbackslash : c ≠ BACKSLASH)
    (rest : List Byte) :
    scanString (c :: rest) = (scanString rest).map fun result => (c :: result.1, result.2) := by
  rw [scanString.eq_def]
  simp [hquote, hbackslash]

def string (cur : JsonCursor) : Option (List Byte) × JsonCursor :=
  match skipWs cur with
  | [] => (none, [])
  | c :: rest =>
      if c = QUOTE then
        match scanString rest with
        | some (text, rest) => (some text, rest)
        | none => (none, [])
      else (none, c :: rest)

def tryObjectStart (cur : JsonCursor) : Bool × JsonCursor := consume OPEN_BRACE cur
def tryObjectEnd (cur : JsonCursor) : Bool × JsonCursor := consume CLOSE_BRACE cur
def tryArrayStart (cur : JsonCursor) : Bool × JsonCursor := consume OPEN_BRACKET cur
def tryArrayEnd (cur : JsonCursor) : Bool × JsonCursor := consume CLOSE_BRACKET cur
def tryComma (cur : JsonCursor) : Bool × JsonCursor := consume COMMA cur

/-- The loop of `skip_value` behind an opening bracket.  The flag says that the
loop is inside a string; brackets of the other kind are not counted. -/
def skipNested (opening closing : Byte) : ℕ → Bool → List Byte → List Byte
  | _, _, [] => []
  | depth, true, c :: rest =>
      if c = BACKSLASH then
        match rest with
        | [] => []
        | _ :: rest => skipNested opening closing depth true rest
      else skipNested opening closing depth (c ≠ QUOTE) rest
  | depth, false, c :: rest =>
      if c = QUOTE then skipNested opening closing depth true rest
      else if c = opening then skipNested opening closing (depth + 1) false rest
      else if c = closing then
        if depth = 1 then rest else skipNested opening closing (depth - 1) false rest
      else skipNested opening closing depth false rest

/-- Bytes at which a scalar value ends. -/
def endsScalar (c : Byte) : Bool :=
  c = COMMA || c = CLOSE_BRACE || c = CLOSE_BRACKET

def skipValue (cur : JsonCursor) : JsonCursor :=
  match skipWs cur with
  | [] => []
  | c :: rest =>
      if c = OPEN_BRACE then skipNested OPEN_BRACE CLOSE_BRACE 1 false rest
      else if c = OPEN_BRACKET then skipNested OPEN_BRACKET CLOSE_BRACKET 1 false rest
      else if c = QUOTE then (string (c :: rest)).2
      else (c :: rest).dropWhile fun c => !endsScalar c

end JsonCursor

open JsonCursor

def parseSize (cur : JsonCursor) : Option ℕ × JsonCursor :=
  match skipWs cur with
  | [] => (none, [])
  | c :: rest =>
      if c = QUOTE then
        match string (c :: rest) with
        | (some text, rest) => ((fromChars 10 text).1, rest)
        | (none, rest) => (none, rest)
      else
        match fromChars 10 (c :: rest) with
        | (some value, rest) => (some value, rest)
        | (none, _) => (none, c :: rest)

/-! ## Floating point numbers -/

/-- What follows a word, which may be in any case. -/
def dropWord (word bytes : List Byte) : Option (List Byte) :=
  if (bytes.take word.length).map asciiLower = word then some (bytes.drop word.length) else none

def dropSign (bytes : List Byte) : List Byte :=
  if bytes.head? = some 0x2b || bytes.head? = some 0x2d then bytes.tail else bytes

/-- The value of an exponent and what follows it. -/
def exponentPart (bytes : List Byte) : ℤ × List Byte :=
  match bytes with
  | [] => (0, [])
  | e :: rest =>
      let digits := (dropSign rest).takeWhile (isDigit 10)
      if asciiLower e ≠ 0x65 || digits.isEmpty then (0, e :: rest)
      else
        (if rest.head? = some 0x2d then -(numeralValue 10 digits : ℤ) else numeralValue 10 digits,
          (dropSign rest).dropWhile (isDigit 10))

/-- The digits behind the point, and what follows them. -/
def fracPart (bytes : List Byte) : List Byte × List Byte :=
  if bytes.head? = some 0x2e then bytes.tail.span (isDigit 10) else ([], bytes)

/-- A decimal number without its sign. -/
def decimal (bytes : List Byte) : Option (Float × List Byte) :=
  let whole := bytes.takeWhile (isDigit 10)
  let frac := fracPart (bytes.dropWhile (isDigit 10))
  let exponent := exponentPart frac.2
  if whole ++ frac.1 = [] then none
  else
    let mantissa := numeralValue 10 (whole ++ frac.1)
    let power := exponent.1 - frac.1.length
    let value := Float.ofScientific mantissa (power < 0) power.natAbs
    if value.isInf || (value == 0.0 && mantissa ≠ 0) then none else some (value, exponent.2)

def isNanChar (c : Byte) : Bool :=
  isDigit 10 c || (0x61 ≤ asciiLower c && asciiLower c ≤ 0x7a) || c = 0x5f

/-- `std::from_chars` into a `double`. -/
def fromCharsDouble (bytes : List Byte) : Option (Float × List Byte) :=
  let negative := bytes.head? = some 0x2d
  let unsigned := if negative then bytes.tail else bytes
  let signed (value : Float) := if negative then -value else value
  match dropWord (bytesOf "infinity") unsigned, dropWord (bytesOf "inf") unsigned,
      dropWord (bytesOf "nan") unsigned with
  | some rest, _, _ | none, some rest, _ => some (signed (1.0 / 0.0), rest)
  | none, none, some rest =>
      match rest.head?, rest.tail.dropWhile isNanChar with
      | some 0x28, 0x29 :: behind => some (signed (0.0 / 0.0), behind)
      | _, _ => some (signed (0.0 / 0.0), rest)
  | none, none, none => (decimal unsigned).map fun result => (signed result.1, result.2)

structure Mantissa where
  mantissa : ℕ := 0
  digits : ℕ := 0
  fracDigits : ℕ := 0
  seenDigit : Bool := false
  seenDot : Bool := false

/-- The digits of the fast path; none if there are too many of them. -/
def scanMantissa : Mantissa → List Byte → Option (Mantissa × List Byte)
  | m, [] => some (m, [])
  | m, c :: rest =>
      if isDigit 10 c then
        if 15 ≤ m.digits then none
        else scanMantissa { m with
          mantissa := m.mantissa * 10 + digitValue c
          digits := m.digits + 1
          fracDigits := if m.seenDot then m.fracDigits + 1 else m.fracDigits
          seenDigit := true } rest
      else if !m.seenDot && c = 0x2e then scanMantissa { m with seenDot := true } rest
      else some (m, c :: rest)

def scanExponent : ℕ → List Byte → Option (ℕ × List Byte)
  | value, [] => some (value, [])
  | value, c :: rest =>
      if !isDigit 10 c then some (value, c :: rest)
      else if 100 < value then none
      else scanExponent (value * 10 + digitValue c) rest

/-- The exponent of the fast path and what follows it; none if `from_chars` is to
be asked. -/
def fastExponent (bytes : List Byte) : Option (ℤ × List Byte) :=
  match bytes with
  | [] => some (0, [])
  | c :: rest =>
      if c = 0x65 || c = 0x45 then
        if ((dropSign rest).takeWhile (isDigit 10)).isEmpty then none
        else (scanExponent 0 (dropSign rest)).map fun result =>
          (if rest.head? = some 0x2d then -(result.1 : ℤ) else result.1, result.2)
      else some (0, c :: rest)

def pow10 (exponent : ℤ) : Float :=
  Float.ofScientific 1 (exponent < 0) exponent.natAbs

/-- The value of the fast path and what follows it; none if `from_chars` is to be
asked. -/
def fastDouble (m : Mantissa) (bytes : List Byte) : Option (Float × List Byte) :=
  if m.seenDot && m.fracDigits = 0 then none
  else
    match fastExponent bytes with
    | none => none
    | some (exponent, rest) =>
        let value := Float.ofNat m.mantissa
        let value := if 0 < m.fracDigits then value * pow10 (-m.fracDigits) else value
        if exponent = 0 then some (value, rest)
        else if -18 ≤ exponent && exponent ≤ 18 then some (value * pow10 exponent, rest)
        else none

def parseDouble (cur : JsonCursor) : Option Float × JsonCursor :=
  match skipWs cur with
  | [] => (none, [])
  | c :: rest =>
      if c = QUOTE then
        match string (c :: rest) with
        | (some text, rest) => ((fromCharsDouble text).map (·.1), rest)
        | (none, rest) => (none, rest)
      else
        let start := c :: rest
        let fallback : Option Float × JsonCursor :=
          match fromCharsDouble start with
          | some (value, rest) => (some value, rest)
          | none => (none, start)
        let unsigned := if c = 0x2d || c = 0x2b then rest else start
        match scanMantissa {} unsigned with
        | none => fallback
        | some (m, bytes) =>
            if !m.seenDigit then (none, start)
            else
              match fastDouble m bytes with
              | none => fallback
              | some (value, rest) => (some (if c = 0x2d then -value else value), rest)

/-! ## Other values -/

def parseBool (cur : JsonCursor) : Option Bool × JsonCursor :=
  let start := skipWs cur
  if start.isEmpty then (none, start)
  else if start.take 4 = bytesOf "true" then (some true, start.drop 4)
  else if start.take 5 = bytesOf "false" then (some false, start.drop 5)
  else if start.head? = some QUOTE then
    match string start with
    | (some text, rest) =>
        (if trimView text = bytesOf "true" then some true
          else if trimView text = bytesOf "false" then some false
          else none, rest)
    | (none, rest) => (none, rest)
  else (none, start)

def parseUnquotedString (cur : JsonCursor) : List Byte × JsonCursor :=
  let start := skipWs cur
  (trimView (start.takeWhile fun c => !endsScalar c), start.dropWhile fun c => !endsScalar c)

/-! ## The cursor moves forward -/

namespace JsonCursor

theorem skipWs_suffix (cur : JsonCursor) : skipWs cur <:+ cur :=
  List.dropWhile_suffix _

theorem skipWs_skipWs (cur : JsonCursor) : skipWs (skipWs cur) = skipWs cur :=
  List.dropWhile_idempotent ..

theorem consume_suffix (c : Byte) (cur : JsonCursor) : (consume c cur).2 <:+ cur := by
  have hws := skipWs_suffix cur
  unfold consume
  split
  next => exact List.nil_suffix
  next d rest heq =>
    rw [heq] at hws
    split
    · exact (List.suffix_cons d rest).trans hws
    · exact hws

theorem consume_lt {c : Byte} {cur : JsonCursor} (h : (consume c cur).1 = true) :
    (consume c cur).2.length < cur.length := by
  have hws := (skipWs_suffix cur).length_le
  unfold consume at h ⊢
  split at h
  next => cases h
  next d rest heq =>
    rw [heq, List.length_cons] at hws
    split at h
    next hd =>
      simp only [hd, if_true]
      omega
    next => cases h

theorem scanString_split {bytes text rest : List Byte} (h : scanString bytes = some (text, rest)) :
    bytes = text ++ QUOTE :: rest := by
  induction bytes using scanString.induct generalizing text rest with
  | case1 => cases h
  | case2 rest' =>
      simp only [scanString_quote, Option.some.injEq, Prod.mk.injEq] at h
      simp [← h.1, ← h.2]
  | case3 =>
      rw [scanString.eq_def] at h
      simp [BACKSLASH, QUOTE] at h
  | case4 d rest' _ ih =>
      rw [scanString_escape, Option.map_eq_some_iff] at h
      rcases h with ⟨⟨text', behind⟩, hrest, heq⟩
      cases heq
      simp [ih hrest]
  | case5 c rest' hquote hbackslash ih =>
      rw [scanString_byte hquote hbackslash, Option.map_eq_some_iff] at h
      rcases h with ⟨⟨text', behind⟩, hrest, heq⟩
      cases heq
      simp [ih hrest]

theorem string_split {cur : JsonCursor} {text : List Byte} (h : (string cur).1 = some text) :
    skipWs cur = QUOTE :: text ++ QUOTE :: (string cur).2 := by
  unfold string at h ⊢
  split at h
  next => cases h
  next c rest heq =>
    split at h
    next hc =>
      cases hscan : scanString rest with
      | none => simp [hscan] at h
      | some result =>
          simp only [hscan, Option.some.injEq] at h
          subst h hc
          rw [heq, scanString_split hscan]
          simp
    next => cases h

theorem string_suffix (cur : JsonCursor) : (string cur).2 <:+ cur := by
  have hws := skipWs_suffix cur
  cases htext : (string cur).1 with
  | some text =>
      have hsplit := string_split htext
      rw [hsplit, List.cons_append] at hws
      apply List.IsSuffix.trans _ hws
      exact ((List.suffix_cons _ _).trans (List.suffix_append text _)).trans (List.suffix_cons _ _)
  | none =>
      unfold string at htext ⊢
      split at htext
      next => exact List.nil_suffix
      next c rest heq =>
        rw [heq] at hws
        split at htext
        next hc =>
          cases hscan : scanString rest with
          | none => simp [hc]
          | some result => simp [hscan] at htext
        next hc => simpa [hc] using hws

theorem string_lt {cur : JsonCursor} {text : List Byte} (h : (string cur).1 = some text) :
    (string cur).2.length + 2 ≤ cur.length := by
  have hws := (skipWs_suffix cur).length_le
  rw [string_split h] at hws
  simp only [List.cons_append, List.length_cons, List.length_append] at hws
  omega

theorem skipNested_suffix (opening closing : Byte) (depth : ℕ) (inside : Bool) (bytes : List Byte) :
    skipNested opening closing depth inside bytes <:+ bytes := by
  induction depth, inside, bytes using skipNested.induct opening closing with
  | case1 depth inside =>
      rw [skipNested.eq_def]
  | case2 depth =>
      rw [skipNested.eq_def]
      simp
  | case3 depth d rest ih =>
      rw [skipNested.eq_def]
      simpa using (ih.trans (List.suffix_cons d rest)).trans (List.suffix_cons BACKSLASH _)
  | case4 depth c rest hc ih =>
      rw [skipNested.eq_def]
      simpa [hc] using ih.trans (List.suffix_cons c rest)
  | case5 depth rest ih =>
      rw [skipNested.eq_def]
      simpa using ih.trans (List.suffix_cons QUOTE rest)
  | case6 depth rest hquote ih =>
      rw [skipNested.eq_def]
      simpa [hquote] using ih.trans (List.suffix_cons opening rest)
  | case7 rest hquote hopening =>
      rw [skipNested.eq_def]
      simp [hquote, hopening]
  | case8 depth rest hdepth hquote hopening ih =>
      rw [skipNested.eq_def]
      simpa [hdepth, hquote, hopening] using ih.trans (List.suffix_cons closing rest)
  | case9 depth c rest hquote hopening hclosing ih =>
      rw [skipNested.eq_def]
      simpa [hquote, hopening, hclosing] using ih.trans (List.suffix_cons c rest)

theorem skipValue_suffix (cur : JsonCursor) : skipValue cur <:+ cur := by
  have hws := skipWs_suffix cur
  unfold skipValue
  split
  next => exact List.nil_suffix
  next c rest heq =>
    rw [heq] at hws
    split_ifs
    · exact ((skipNested_suffix _ _ _ _ rest).trans (List.suffix_cons c rest)).trans hws
    · exact ((skipNested_suffix _ _ _ _ rest).trans (List.suffix_cons c rest)).trans hws
    · exact (string_suffix _).trans hws
    · exact (List.dropWhile_suffix _).trans hws

/-- A value that does not begin with a comma or a closing bracket takes a byte. -/
theorem skipValue_lt {cur : JsonCursor} {c : Byte} {rest : List Byte}
    (hcur : skipWs cur = c :: rest) (hc : endsScalar c = false) :
    (skipValue cur).length < cur.length := by
  have hws := (skipWs_suffix cur).length_le
  rw [hcur, List.length_cons] at hws
  unfold skipValue
  simp only [hcur]
  split_ifs with hbrace hbracket hquote
  · have hle := (skipNested_suffix OPEN_BRACE CLOSE_BRACE 1 false rest).length_le
    omega
  · have hle := (skipNested_suffix OPEN_BRACKET CLOSE_BRACKET 1 false rest).length_le
    omega
  · subst hquote
    have hle : (string (QUOTE :: rest)).2.length ≤ rest.length := by
      cases htext : (string (QUOTE :: rest)).1 with
      | some text =>
          have hlt := string_lt htext
          simp only [List.length_cons] at hlt
          omega
      | none =>
          have hskip : skipWs (QUOTE :: rest) = QUOTE :: rest := rfl
          unfold string at htext ⊢
          simp only [hskip, if_true] at htext ⊢
          cases hscan : scanString rest with
          | none => simp
          | some result => simp [hscan] at htext
    omega
  · have hle := List.length_dropWhile_le (fun c => !endsScalar c) rest
    rw [List.dropWhile_cons_of_pos (by simp [hc])]
    omega

end JsonCursor

theorem fromChars_suffix (base : ℕ) (bytes : List Byte) : (fromChars base bytes).2 <:+ bytes := by
  simp only [fromChars]
  split_ifs
  · exact List.suffix_rfl
  · exact List.dropWhile_suffix _
  · exact List.dropWhile_suffix _

theorem parseSize_suffix (cur : JsonCursor) : (parseSize cur).2 <:+ cur := by
  have hws := skipWs_suffix cur
  unfold parseSize
  split
  next => exact List.nil_suffix
  next c rest heq =>
    rw [heq] at hws
    split
    next =>
      have hstring := string_suffix (c :: rest)
      split <;> rename_i hresult <;> rw [hresult] at hstring <;> exact hstring.trans hws
    next =>
      have hchars := fromChars_suffix 10 (c :: rest)
      split
      next value behind hresult =>
        rw [hresult] at hchars
        exact hchars.trans hws
      next => exact hws

theorem dropWord_suffix {word bytes rest : List Byte} (h : dropWord word bytes = some rest) :
    rest <:+ bytes := by
  unfold dropWord at h
  split at h
  · cases h
    exact List.drop_suffix _ _
  · cases h

theorem dropSign_suffix (bytes : List Byte) : dropSign bytes <:+ bytes := by
  unfold dropSign
  split
  · exact List.tail_suffix _
  · exact List.suffix_rfl

theorem exponentPart_suffix (bytes : List Byte) : (exponentPart bytes).2 <:+ bytes := by
  unfold exponentPart
  split
  next => exact List.suffix_rfl
  next e rest =>
    dsimp only
    split
    · exact List.suffix_rfl
    · exact ((List.dropWhile_suffix _).trans (dropSign_suffix rest)).trans (List.suffix_cons e rest)

theorem fracPart_suffix (bytes : List Byte) : (fracPart bytes).2 <:+ bytes := by
  unfold fracPart
  split
  · rw [List.span_eq_takeWhile_dropWhile]
    exact (List.dropWhile_suffix _).trans (List.tail_suffix _)
  · exact List.suffix_rfl

theorem decimal_suffix {bytes rest : List Byte} {value : Float}
    (h : decimal bytes = some (value, rest)) : rest <:+ bytes := by
  simp only [decimal] at h
  split at h
  · cases h
  · split at h
    · cases h
    · cases h
      exact ((exponentPart_suffix _).trans (fracPart_suffix _)).trans (List.dropWhile_suffix _)

theorem fromCharsDouble_suffix {bytes rest : List Byte} {value : Float}
    (h : fromCharsDouble bytes = some (value, rest)) : rest <:+ bytes := by
  have hunsigned : (if bytes.head? = some 0x2d then bytes.tail else bytes) <:+ bytes := by
    split
    · exact List.tail_suffix _
    · exact List.suffix_rfl
  have hword {word behind : List Byte} (hdrop : dropWord word
      (if bytes.head? = some 0x2d then bytes.tail else bytes) = some behind) : behind <:+ bytes :=
    (dropWord_suffix hdrop).trans hunsigned
  simp only [fromCharsDouble] at h
  split at h
  next hdrop =>
    cases h
    exact hword hdrop
  next _ hdrop =>
    cases h
    exact hword hdrop
  next behind _ _ hdrop =>
    split at h
    next _ _ hbehind =>
      cases h
      have hnan : behind.tail.dropWhile isNanChar <:+ behind :=
        (List.dropWhile_suffix _).trans (List.tail_suffix _)
      rw [hbehind] at hnan
      exact ((List.suffix_cons _ _).trans hnan).trans (hword hdrop)
    next =>
      cases h
      exact hword hdrop
  next =>
    rw [Option.map_eq_some_iff] at h
    rcases h with ⟨⟨value', behind⟩, hdecimal, heq⟩
    cases heq
    exact (decimal_suffix hdecimal).trans hunsigned

theorem scanMantissa_suffix {m m' : Mantissa} {bytes rest : List Byte}
    (h : scanMantissa m bytes = some (m', rest)) : rest <:+ bytes := by
  induction bytes generalizing m with
  | nil =>
      cases h
      exact List.suffix_rfl
  | cons c bytes ih =>
      rw [scanMantissa] at h
      split at h
      · split at h
        · cases h
        · exact (ih h).trans (List.suffix_cons c bytes)
      · split at h
        · exact (ih h).trans (List.suffix_cons c bytes)
        · cases h
          exact List.suffix_rfl

theorem scanExponent_suffix {value value' : ℕ} {bytes rest : List Byte}
    (h : scanExponent value bytes = some (value', rest)) : rest <:+ bytes := by
  induction bytes generalizing value with
  | nil =>
      cases h
      exact List.suffix_rfl
  | cons c bytes ih =>
      rw [scanExponent] at h
      split_ifs at h
      · cases h
        exact List.suffix_rfl
      · exact (ih h).trans (List.suffix_cons c bytes)

theorem fastExponent_suffix {bytes rest : List Byte} {exponent : ℤ}
    (h : fastExponent bytes = some (exponent, rest)) : rest <:+ bytes := by
  unfold fastExponent at h
  split at h
  next =>
    cases h
    exact List.suffix_rfl
  next c bytes =>
    split at h
    · split at h
      · cases h
      · rw [Option.map_eq_some_iff] at h
        rcases h with ⟨⟨value, behind⟩, hscan, heq⟩
        cases heq
        exact ((scanExponent_suffix hscan).trans (dropSign_suffix bytes)).trans
          (List.suffix_cons c bytes)
    · cases h
      exact List.suffix_rfl

theorem fastDouble_suffix {m : Mantissa} {bytes rest : List Byte} {value : Float}
    (h : fastDouble m bytes = some (value, rest)) : rest <:+ bytes := by
  unfold fastDouble at h
  split at h
  · cases h
  · split at h
    next => cases h
    next exponent behind hexponent =>
      have hsuffix := fastExponent_suffix hexponent
      dsimp only at h
      split_ifs at h <;> cases h <;> exact hsuffix

theorem parseDouble_suffix (cur : JsonCursor) : (parseDouble cur).2 <:+ cur := by
  have hws := skipWs_suffix cur
  unfold parseDouble
  split
  next => exact List.nil_suffix
  next c rest heq =>
    rw [heq] at hws
    split
    next =>
      have hstring := string_suffix (c :: rest)
      split <;> rename_i hresult <;> rw [hresult] at hstring <;> exact hstring.trans hws
    next =>
      have hfallback : (match fromCharsDouble (c :: rest) with
          | some (value, rest) => (some value, rest)
          | none => (none, c :: rest) : Option Float × JsonCursor).2 <:+ c :: rest := by
        split
        next hchars => exact fromCharsDouble_suffix hchars
        next => exact List.suffix_rfl
      have hunsigned : (if c = 0x2d || c = 0x2b then rest else c :: rest) <:+ c :: rest := by
        split
        · exact List.suffix_cons c rest
        · exact List.suffix_rfl
      apply List.IsSuffix.trans _ hws
      dsimp only
      split
      next => exact hfallback
      next m bytes hscan =>
        split
        next => exact List.suffix_rfl
        next =>
          split
          next => exact hfallback
          next value behind hfast =>
            exact ((fastDouble_suffix hfast).trans (scanMantissa_suffix hscan)).trans hunsigned

theorem parseBool_suffix (cur : JsonCursor) : (parseBool cur).2 <:+ cur := by
  have hws := skipWs_suffix cur
  unfold parseBool
  dsimp only
  split_ifs
  · exact hws
  · exact (List.drop_suffix _ _).trans hws
  · exact (List.drop_suffix _ _).trans hws
  · have hstring := string_suffix (skipWs cur)
    split <;> rename_i hresult <;> rw [hresult] at hstring <;> exact hstring.trans hws
  · exact hws

theorem parseUnquotedString_suffix (cur : JsonCursor) : (parseUnquotedString cur).2 <:+ cur :=
  (List.dropWhile_suffix _).trans (skipWs_suffix cur)

end Serde
end Katana
