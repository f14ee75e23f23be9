import Katana.Serde.Cursor

/-!
# Escapes of JSON strings

`escape_json_string` looks at blocks of 32 or 16 bytes where the build has vector
instructions, and at single bytes behind the last block.  In every build it
replaces byte by byte, and a cursor behind the opening quote reads the result up to
the closing quote.  The result is the string itself exactly if no byte needs an
escape; a string with such a byte becomes longer.
-/

namespace Katana
namespace Serde

open Http (Byte bytesOf)

/-- The vector instructions of a build. -/
inductive Build where
  | avx2 | sse2 | neon | plain
  deriving DecidableEq

def needsEscape (c : Byte) : Bool :=
  c = BACKSLASH || c = QUOTE || c ≤ 0x1f

/-- Whether some byte of the given number of whole blocks needs an escape. -/
def blocksNeedEscape (width : ℕ) : ℕ → List Byte → Bool
  | 0, _ => false
  | blocks + 1, bytes =>
      (bytes.take width).any needsEscape || blocksNeedEscape width blocks (bytes.drop width)

/-- The loop over the blocks, then what is to be done behind them. -/
def needsInBlocks (width : ℕ) (behind : List Byte → Bool) (bytes : List Byte) : Bool :=
  blocksNeedEscape width (bytes.length / width) bytes ||
    behind (bytes.drop (bytes.length / width * width))

def needsJsonEscaping (build : Build) (bytes : List Byte) : Bool :=
  match build with
  | .avx2 => needsInBlocks 32 (needsInBlocks 16 fun rest => rest.any needsEscape) bytes
  | .sse2 | .neon => needsInBlocks 16 (fun rest => rest.any needsEscape) bytes
  | .plain => bytes.any needsEscape

def hexDigit (n : ℕ) : Byte :=
  (bytesOf "0123456789abcdef").getD n 0

def escapeOneChar (c : Byte) : List Byte :=
  if c = BACKSLASH then bytesOf "\\\\"
  else if c = QUOTE then bytesOf "\\\""
  else if c = 0x0a then bytesOf "\\n"
  else if c = 0x0d then bytesOf "\\r"
  else if c = 0x09 then bytesOf "\\t"
  else bytesOf "\\u00" ++ [hexDigit (c.toNat / 16 % 16), hexDigit (c.toNat % 16)]

/-- The positions of a block whose bits are set in the mask. -/
def escapeMask (chunk : List Byte) : List ℕ :=
  (List.range chunk.length).filter fun i => needsEscape (chunk.getD i 0)

/-- The loop over the set bits; the bytes before `last` have been written. -/
def escapeChunk (chunk : List Byte) : List ℕ → ℕ → List Byte
  | [], last => chunk.drop last
  | idx :: bits, last =>
      (chunk.drop last).take (idx - last) ++ escapeOneChar (chunk.getD idx 0) ++
        escapeChunk chunk bits (idx + 1)

def escapeBlocks (width : ℕ) : ℕ → List Byte → List Byte
  | 0, _ => []
  | blocks + 1, bytes =>
      let chunk := bytes.take width
      (if escapeMask chunk = [] then chunk else escapeChunk chunk (escapeMask chunk) 0) ++
        escapeBlocks width blocks (bytes.drop width)

/-- The loop behind the blocks: a run of clean bytes, then one escape.  Every pass
but the last takes a byte. -/
def escapeTail : ℕ → List Byte → List Byte
  | 0, _ => []
  | passes + 1, bytes =>
      bytes.takeWhile (fun c => !needsEscape c) ++
        match bytes.dropWhile (fun c => !needsEscape c) with
        | [] => []
        | c :: rest => escapeOneChar c ++ escapeTail passes rest

def escapeInBlocks (width : ℕ) (bytes : List Byte) : List Byte :=
  escapeBlocks width (bytes.length / width) bytes ++
    escapeTail (bytes.length + 1) (bytes.drop (bytes.length / width * width))

def escapeJsonStringIntoEscaped (build : Build) (bytes : List Byte) : List Byte :=
  match build with
  | .avx2 => escapeInBlocks 32 bytes
  | .sse2 => escapeInBlocks 16 bytes
  | .neon | .plain => escapeTail (bytes.length + 1) bytes

def escapeJsonString (build : Build) (bytes : List Byte) : List Byte :=
  if !needsJsonEscaping build bytes then bytes else escapeJsonStringIntoEscaped build bytes

/-! ## Byte by byte -/

def escapeByte (c : Byte) : List Byte :=
  if needsEscape c then escapeOneChar c else [c]

theorem blocksNeedEscape_eq (width : ℕ) : ∀ (blocks : ℕ) (bytes : List Byte),
    blocksNeedEscape width blocks bytes = (bytes.take (blocks * width)).any needsEscape
  | 0, bytes => by simp [blocksNeedEscape]
  | blocks + 1, bytes => by
      rw [blocksNeedEscape, blocksNeedEscape_eq width blocks, ← List.any_append,
        ← List.take_add, Nat.succ_mul, Nat.add_comm width]

theorem needsInBlocks_eq (width : ℕ) {behind : List Byte → Bool}
    (hbehind : ∀ bytes, behind bytes = bytes.any needsEscape) (bytes : List Byte) :
    needsInBlocks width behind bytes = bytes.any needsEscape := by
  unfold needsInBlocks
  rw [blocksNeedEscape_eq, hbehind, ← List.any_append, List.take_append_drop]

theorem needsJsonEscaping_eq (build : Build) (bytes : List Byte) :
    needsJsonEscaping build bytes = bytes.any needsEscape := by
  have htail : ∀ bytes : List Byte,
      needsInBlocks 16 (fun rest => rest.any needsEscape) bytes = bytes.any needsEscape :=
    needsInBlocks_eq 16 fun _ => rfl
  cases build with
  | avx2 => exact needsInBlocks_eq 32 htail bytes
  | sse2 => exact htail bytes
  | neon => exact htail bytes
  | plain => rfl

theorem flatMap_clean {bytes : List Byte} (hclean : ∀ c ∈ bytes, needsEscape c = false) :
    bytes.flatMap escapeByte = bytes := by
  induction bytes with
  | nil => rfl
  | cons c bytes ih =>
      have hc := hclean c (by simp)
      have hrest := ih fun d hd => hclean d (by simp [hd])
      simp [escapeByte, hc, hrest]

theorem drop_split {bytes : List Byte} {last k : ℕ} (hlast : last ≤ k) (hk : k < bytes.length) :
    bytes.drop last =
      (bytes.drop last).take (k - last) ++ bytes.getD k 0 :: bytes.drop (k + 1) := by
  have hdrop : bytes.drop k = bytes.getD k 0 :: bytes.drop (k + 1) := by
    rw [List.drop_eq_getElem_cons hk, List.getD_eq_getElem _ _ hk]
  have hsplit := List.take_append_drop (k - last) (bytes.drop last)
  rw [List.drop_drop, Nat.add_sub_cancel' hlast, hdrop] at hsplit
  exact hsplit.symm

/-- The loop over the bits from position `k` on, if no bit is set between the bytes
written and `k`. -/
theorem escapeChunk_eq (chunk : List Byte) : ∀ (n k last : ℕ), last ≤ k → k + n = chunk.length →
    (∀ c ∈ (chunk.drop last).take (k - last), needsEscape c = false) →
    escapeChunk chunk ((List.range' k n).filter fun i => needsEscape (chunk.getD i 0)) last =
      (chunk.drop last).flatMap escapeByte
  | 0, k, last, _, hlength, hclean => by
      have hall : (chunk.drop last).take (k - last) = chunk.drop last := by
        apply List.take_of_length_le
        simp only [List.length_drop]
        omega
      rw [hall] at hclean
      simp [escapeChunk, flatMap_clean hclean]
  | n + 1, k, last, hlast, hlength, hclean => by
      have hsplit := drop_split hlast (show k < chunk.length by omega)
      rw [List.range'_succ]
      cases hbit : needsEscape (chunk.getD k 0) with
      | true =>
          have hrest := escapeChunk_eq chunk n (k + 1) (k + 1) le_rfl (by omega) (by simp)
          rw [List.filter_cons, if_pos hbit, escapeChunk, hrest]
          conv_rhs => rw [hsplit]
          rw [List.flatMap_append, flatMap_clean hclean, List.flatMap_cons, List.append_assoc]
          simp only [escapeByte, hbit, if_true]
      | false =>
          rw [List.filter_cons, if_neg (by simp only [hbit, Bool.false_eq_true, not_false_eq_true])]
          apply escapeChunk_eq chunk n (k + 1) last (by omega) (by omega)
          have htake : (chunk.drop last).take (k + 1 - last) =
              (chunk.drop last).take (k - last) ++ [chunk.getD k 0] := by
            have hlength : ((chunk.drop last).take (k - last)).length = k - last := by
              simp only [List.length_take, List.length_drop]
              omega
            conv_lhs => rw [hsplit]
            rw [List.take_append, hlength, List.take_of_length_le (by omega),
              show k + 1 - last - (k - last) = 1 by omega]
            rfl
          rw [htake]
          intro c hc
          rcases List.mem_append.mp hc with hc | hc
          · exact hclean c hc
          · rw [List.mem_singleton.mp hc]
            exact hbit

theorem escapeBlocks_eq (width : ℕ) : ∀ (blocks : ℕ) (bytes : List Byte),
    escapeBlocks width blocks bytes = (bytes.take (blocks * width)).flatMap escapeByte
  | 0, bytes => by simp [escapeBlocks]
  | blocks + 1, bytes => by
      have hchunk : (if escapeMask (bytes.take width) = [] then bytes.take width
          else escapeChunk (bytes.take width) (escapeMask (bytes.take width)) 0) =
            (bytes.take width).flatMap escapeByte := by
        have hloop := escapeChunk_eq (bytes.take width) (bytes.take width).length 0 0 le_rfl
          (by omega) (by simp)
        rw [← List.range_eq_range'] at hloop
        split
        next hmask =>
          unfold escapeMask at hmask
          rw [hmask] at hloop
          simpa [escapeChunk] using hloop
        next => simpa [escapeMask] using hloop
      rw [escapeBlocks, escapeBlocks_eq width blocks, hchunk, ← List.flatMap_append,
        ← List.take_add, Nat.succ_mul, Nat.add_comm width]

theorem escapeTail_eq : ∀ (passes : ℕ) (bytes : List Byte), bytes.length < passes →
    escapeTail passes bytes = bytes.flatMap escapeByte
  | 0, _, hpasses => absurd hpasses (Nat.not_lt_zero _)
  | passes + 1, bytes, hpasses => by
      have hclean : (bytes.takeWhile fun c => !needsEscape c).flatMap escapeByte =
          bytes.takeWhile fun c => !needsEscape c := by
        apply flatMap_clean
        intro c hc
        simpa using List.mem_takeWhile_imp hc
      have hsplit := List.takeWhile_append_dropWhile (p := fun c => !needsEscape c) (l := bytes)
      rw [escapeTail]
      cases hrest : bytes.dropWhile fun c => !needsEscape c with
      | nil =>
          rw [hrest, List.append_nil] at hsplit
          rw [hsplit] at hclean ⊢
          simp [hclean]
      | cons c rest =>
          have hc : needsEscape c = true := by
            have hhead := List.head?_dropWhile_not (fun c => !needsEscape c) bytes
            simpa [hrest] using hhead
          have hlength : rest.length < passes := by
            have hle := List.length_dropWhile_le (fun c => !needsEscape c) bytes
            rw [hrest, List.length_cons] at hle
            omega
          conv_rhs => rw [← hsplit, hrest]
          rw [List.flatMap_append, hclean, List.flatMap_cons]
          simp [escapeByte, hc, escapeTail_eq passes rest hlength]

theorem escapeInBlocks_eq (width : ℕ) (bytes : List Byte) :
    escapeInBlocks width bytes = bytes.flatMap escapeByte := by
  unfold escapeInBlocks
  rw [escapeBlocks_eq, escapeTail_eq _ _ (by simp only [List.length_drop]; omega),
    ← List.flatMap_append, List.take_append_drop]

/-- Every build escapes byte by byte. -/
theorem escapeJsonString_eq (build : Build) (bytes : List Byte) :
    escapeJsonString build bytes = bytes.flatMap escapeByte := by
  unfold escapeJsonString
  rw [needsJsonEscaping_eq]
  split
  next hclean =>
    simp only [Bool.not_eq_true', List.any_eq_false, Bool.not_eq_true] at hclean
    exact (flatMap_clean hclean).symm
  next =>
    cases build with
    | avx2 => exact escapeInBlocks_eq 32 bytes
    | sse2 => exact escapeInBlocks_eq 16 bytes
    | neon => exact escapeTail_eq _ _ (Nat.lt_succ_self _)
    | plain => exact escapeTail_eq _ _ (Nat.lt_succ_self _)

/-! ## Reading an escaped string -/

/-- A text that a cursor behind the opening quote reads as it stands, if a closing
quote follows. -/
def Enclosed (text : List Byte) : Prop :=
  ∀ rest, JsonCursor.scanString (text ++ QUOTE :: rest) = some (text, rest)

theorem enclosed_nil : Enclosed [] := by
  intro rest
  simp

theorem Enclosed.byte {c : Byte} {text : List Byte} (h : Enclosed text) (hquote : c ≠ QUOTE)
    (hbackslash : c ≠ BACKSLASH) : Enclosed (c :: text) := by
  intro rest
  simp [JsonCursor.scanString_byte hquote hbackslash, h rest]

theorem Enclosed.escape {text : List Byte} (h : Enclosed text) (c : Byte) :
    Enclosed (BACKSLASH :: c :: text) := by
  intro rest
  simp [h rest]

theorem Enclosed.bytes {text : List Byte} (h : Enclosed text) {plain : List Byte}
    (hplain : ∀ c ∈ plain, c ≠ QUOTE ∧ c ≠ BACKSLASH) : Enclosed (plain ++ text) := by
  induction plain with
  | nil => exact h
  | cons c plain ih =>
      have hc := hplain c (by simp)
      exact (ih fun d hd => hplain d (by simp [hd])).byte hc.1 hc.2

theorem hexDigit_plain (n : ℕ) : hexDigit (n % 16) ≠ QUOTE ∧ hexDigit (n % 16) ≠ BACKSLASH := by
  have hall : ∀ d < 16, hexDigit d ≠ QUOTE ∧ hexDigit d ≠ BACKSLASH := by decide
  exact hall _ (Nat.mod_lt _ (by omega))

theorem Enclosed.escapeOneChar {text : List Byte} (h : Enclosed text) (c : Byte) :
    Enclosed (Serde.escapeOneChar c ++ text) := by
  unfold Serde.escapeOneChar
  split_ifs
  · exact h.escape _
  · exact h.escape _
  · exact h.escape _
  · exact h.escape _
  · exact h.escape _
  · rw [List.append_assoc]
    apply Enclosed.escape (c := 0x75)
    have hdigits : Enclosed ([hexDigit (c.toNat / 16 % 16), hexDigit (c.toNat % 16)] ++ text) := by
      apply h.bytes
      simp [hexDigit_plain]
    exact (hdigits.byte (by decide) (by decide)).byte (by decide) (by decide)

theorem enclosed_escape (build : Build) (bytes : List Byte) :
    Enclosed (escapeJsonString build bytes) := by
  rw [escapeJsonString_eq]
  induction bytes with
  | nil => exact enclosed_nil
  | cons c bytes ih =>
      rw [List.flatMap_cons, escapeByte]
      split
      next => exact ih.escapeOneChar c
      next hclean =>
        apply ih.byte
        · rintro rfl
          exact hclean rfl
        · rintro rfl
          exact hclean rfl

/-- The JSON string of a text. -/
def quoted (text : List Byte) : List Byte :=
  QUOTE :: text ++ [QUOTE]

theorem Enclosed.string {text rest : List Byte} {cur : JsonCursor} (h : Enclosed text)
    (hcur : cur.skipWs = quoted text ++ rest) : cur.string = (some text, rest) := by
  have hscan := h rest
  simp only [quoted, List.cons_append, List.append_assoc, List.nil_append] at hcur
  simp [JsonCursor.string, hcur, hscan]

theorem Enclosed.skipValue {text rest : List Byte} {cur : JsonCursor} (h : Enclosed text)
    (hcur : cur.skipWs = quoted text ++ rest) : cur.skipValue = rest := by
  have hown : (cur.skipWs).skipWs = quoted text ++ rest := by rw [JsonCursor.skipWs_skipWs, hcur]
  have hstring := h.string hown
  have hcons : cur.skipWs = QUOTE :: (text ++ [QUOTE] ++ rest) := by simp [hcur, quoted]
  rw [hcons] at hstring
  have hbrace : QUOTE ≠ OPEN_BRACE := by decide
  have hbracket : QUOTE ≠ OPEN_BRACKET := by decide
  unfold JsonCursor.skipValue
  simp only [hcons, if_neg hbrace, if_neg hbracket, if_true, hstring]

/-! ## Length -/

theorem length_escapeOneChar (c : Byte) : 1 < (escapeOneChar c).length := by
  unfold escapeOneChar
  split_ifs <;> simp [bytesOf]

theorem length_escape (build : Build) (bytes : List Byte) :
    bytes.length ≤ (escapeJsonString build bytes).length := by
  rw [escapeJsonString_eq]
  induction bytes with
  | nil => simp
  | cons c bytes ih =>
      have hbyte : 1 ≤ (escapeByte c).length := by
        unfold escapeByte
        split
        · exact (length_escapeOneChar c).le
        · simp
      simp only [List.flatMap_cons, List.length_append, List.length_cons]
      omega

/-- The escaped string is the string exactly if no byte needs an escape. -/
theorem escape_eq_iff (build : Build) (bytes : List Byte) :
    escapeJsonString build bytes = bytes ↔ needsJsonEscaping build bytes = false := by
  constructor
  · intro heq
    rw [escapeJsonString_eq] at heq
    rw [needsJsonEscaping_eq]
    induction bytes with
    | nil => rfl
    | cons c bytes ih =>
        have hlength := length_escape build bytes
        rw [escapeJsonString_eq] at hlength
        cases hc : needsEscape c with
        | true =>
            have hlong := length_escapeOneChar c
            have htotal := congrArg List.length heq
            simp only [List.flatMap_cons, escapeByte, hc, if_true, List.length_append,
              List.length_cons] at htotal
            omega
        | false =>
            simp only [List.flatMap_cons, escapeByte, hc] at heq
            simp only [List.any_cons, hc, Bool.false_or]
            exact ih (by simpa using heq)
  · intro hclean
    simp [escapeJsonString, hclean]

end Serde
end Katana
