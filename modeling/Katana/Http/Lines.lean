import Katana.Http.ParserSteps

/-!
# Lines of a message

CRLF has no border, so a byte string is cut into lines in one way only.  The
lemmas here describe the scans of the parser on input that is given as lines:
where the next line ends, where the header section ends, and when the byte check
passes.
-/

namespace Katana
namespace Http

open Library

theorem crlf_unbordered : Unbordered CRLF := by
  intro k hpos hlt
  have hk : k = 1 := by
    have : CRLF.length = 2 := rfl
    omega
  subst hk
  decide

theorem crlf_ne_nil : CRLF ≠ [] := nofun

/-- Lines on the wire, each with its CRLF. -/
def renderLines (lines : List (List Byte)) : List Byte :=
  (lines.map (· ++ CRLF)).flatten

@[simp] theorem renderLines_nil : renderLines [] = [] := rfl

@[simp] theorem renderLines_cons (line : List Byte) (lines : List (List Byte)) :
    renderLines (line :: lines) = line ++ CRLF ++ renderLines lines := rfl

theorem renderLines_append (lines more : List (List Byte)) :
    renderLines (lines ++ more) = renderLines lines ++ renderLines more := by
  simp [renderLines]

theorem findCrlf_line {line : List Byte} (hline : findCrlf line = none) (rest : List Byte) :
    findCrlf (line ++ CRLF ++ rest) = some line.length :=
  firstIndex_segment crlf_ne_nil crlf_unbordered hline rest

/-- Bytes that end with CRLF are a list of lines. -/
theorem exists_renderLines {bytes : List Byte} (hend : bytes = [] ∨ CRLF <:+ bytes) :
    ∃ lines, bytes = renderLines lines ∧ ∀ line ∈ lines, findCrlf line = none := by
  induction hsize : bytes.length using Nat.strong_induction_on generalizing bytes with
  | _ size ih =>
      rcases hend with rfl | ⟨front, hfront⟩
      · exact ⟨[], rfl, nofun⟩
      cases hfind : findCrlf bytes with
      | none =>
          refine absurd ?_ ((firstIndex_eq_none_iff crlf_ne_nil).mp hfind front.length)
          rw [← hfront, List.drop_left]
      | some i =>
          have hsplit := firstIndex_split hfind
          have hbound := Parser.findCrlf_bound hfind
          obtain ⟨-, -, hfirst⟩ := (firstIndex_eq_some_iff).mp hfind
          rw [Parser.crlf_length] at hsplit
          have hrest : bytes.drop (i + 2) = [] ∨ CRLF <:+ bytes.drop (i + 2) := by
            have hlength := congrArg List.length hfront
            rw [List.length_append, Parser.crlf_length] at hlength
            by_cases hlast : i = front.length
            · left
              rw [List.drop_eq_nil_iff]
              omega
            right
            by_cases hbefore : i + 2 ≤ front.length
            · rw [← hfront, List.drop_append_of_le_length hbefore]
              exact List.suffix_append _ _
            · -- the two occurrences would overlap
              exfalso
              have hat : CRLF <+: bytes.drop front.length := by
                rw [← hfront, List.drop_left]
              have hi : i + 1 = front.length ∨ front.length < i := by omega
              rcases hi with hi | hi
              · obtain ⟨-, hati, -⟩ := (firstIndex_eq_some_iff).mp hfind
                obtain ⟨tail, htail⟩ := hati
                rw [← hi, ← List.drop_drop, ← htail] at hat
                revert hat
                simp [CRLF, CR, LF]
              · exact hfirst _ hi hat
          have hlines : findCrlf (bytes.take i) = none := by
            rw [findCrlf, firstIndex_eq_none_iff crlf_ne_nil]
            intro j hj
            have hlen := hj.length_le
            rw [List.length_drop, List.length_take, Parser.crlf_length] at hlen
            refine hfirst j (by omega) (hj.trans ?_)
            rw [List.drop_take]
            exact List.take_prefix _ _
          obtain ⟨lines, hlines', hfree⟩ := ih (bytes.drop (i + 2)).length
            (by
              rw [List.length_drop]
              omega) hrest rfl
          refine ⟨bytes.take i :: lines, ?_, ?_⟩
          · rw [renderLines_cons, ← hlines']
            exact hsplit
          · intro line hmem
            rcases List.mem_cons.mp hmem with rfl | hmem
            · exact hlines
            · exact hfree line hmem

/-! ## The end of the header section -/

theorem findHeaderTerminator_eq_zero {bytes : List Byte} {start : ℕ} :
    findHeaderTerminator bytes start = 0 ↔
      firstIndex (CRLF ++ CRLF) (bytes.drop start) = none := by
  unfold findHeaderTerminator
  split
  next i hfind => simp [hfind]
  next hfind => simp [hfind]

theorem findHeaderTerminator_spec {bytes : List Byte} {start : ℕ}
    (h : findHeaderTerminator bytes start ≠ 0) :
    start + 4 ≤ findHeaderTerminator bytes start ∧
      findHeaderTerminator bytes start ≤ bytes.length ∧
      CRLF ++ CRLF <+: bytes.drop (findHeaderTerminator bytes start - 4) := by
  unfold findHeaderTerminator at h ⊢
  split
  next i hfind =>
    have hbound := firstIndex_bound hfind
    obtain ⟨-, hat, -⟩ := (firstIndex_eq_some_iff).mp hfind
    rw [List.length_drop, show (CRLF ++ CRLF).length = 4 from rfl] at hbound
    rw [List.drop_drop] at hat
    refine ⟨by omega, by omega, ?_⟩
    rwa [Nat.add_sub_cancel]
  next hfind =>
    rw [hfind] at h
    exact absurd rfl h

theorem findHeaderTerminator_append {bytes : List Byte} (h : findHeaderTerminator bytes 0 ≠ 0)
    (more : List Byte) :
    findHeaderTerminator (bytes ++ more) 0 = findHeaderTerminator bytes 0 := by
  cases hfind : firstIndex (CRLF ++ CRLF) bytes with
  | none => exact absurd (findHeaderTerminator_eq_zero.mpr (by rwa [List.drop_zero])) h
  | some i =>
      unfold findHeaderTerminator
      rw [List.drop_zero, List.drop_zero, hfind, firstIndex_append hfind]

/-- A terminator that was not there before ends behind the old bytes. -/
theorem lt_findHeaderTerminator_append {bytes more : List Byte}
    (h : findHeaderTerminator bytes 0 = 0)
    (h' : findHeaderTerminator (bytes ++ more) 0 ≠ 0) :
    bytes.length < findHeaderTerminator (bytes ++ more) 0 := by
  rw [findHeaderTerminator_eq_zero, List.drop_zero] at h
  cases hfind : firstIndex (CRLF ++ CRLF) (bytes ++ more) with
  | none => exact absurd (findHeaderTerminator_eq_zero.mpr (by rwa [List.drop_zero])) h'
  | some i =>
      have hlt := firstIndex_none_append (by simp [CRLF]) h hfind
      rw [show (CRLF ++ CRLF).length = 4 from rfl] at hlt
      unfold findHeaderTerminator
      rw [List.drop_zero, hfind]
      dsimp only
      omega

/-- The scan may resume three bytes before the end of what it has seen. -/
theorem findHeaderTerminator_resume {bytes : List Byte} (h : findHeaderTerminator bytes 0 = 0)
    (more : List Byte) :
    findHeaderTerminator (bytes ++ more) (if bytes.length > 3 then bytes.length - 3 else 0) =
      findHeaderTerminator (bytes ++ more) 0 := by
  split
  next hlong =>
    have hclean : ∀ j < bytes.length - 3, ¬ CRLF ++ CRLF <+: (bytes ++ more).drop j := by
      intro j hj hat
      rw [findHeaderTerminator_eq_zero, List.drop_zero,
        firstIndex_eq_none_iff (by simp [CRLF])] at h
      refine h j ?_
      rw [List.drop_append_of_le_length (by omega)] at hat
      refine List.prefix_of_prefix_length_le hat (List.prefix_append _ _) ?_
      rw [List.length_drop, show (CRLF ++ CRLF).length = 4 from rfl]
      omega
    have hrestart := firstIndex_restart (by simp [CRLF]) hclean
    unfold findHeaderTerminator
    rw [List.drop_zero, hrestart]
    cases firstIndex (CRLF ++ CRLF) ((bytes ++ more).drop (bytes.length - 3)) with
    | none => rfl
    | some i =>
        dsimp only [Option.map_some]
        omega
  · rfl

theorem findHeaderTerminator_of_append {bytes more : List Byte}
    (h : findHeaderTerminator (bytes ++ more) 0 = 0) : findHeaderTerminator bytes 0 = 0 := by
  by_contra hne
  rw [findHeaderTerminator_append hne] at h
  exact hne h

/-- Lines none of which but the first is empty: the header section ends at the
empty line behind them. -/
theorem findHeaderTerminator_lines {line : List Byte} {lines : List (List Byte)}
    (hline : findCrlf line = none) (hlines : ∀ l ∈ lines, findCrlf l = none ∧ l ≠ [])
    (rest : List Byte) :
    findHeaderTerminator (renderLines (line :: lines) ++ CRLF ++ rest) 0 =
      (renderLines (line :: lines) ++ CRLF).length := by
  have hfirst : firstIndex (CRLF ++ CRLF) (renderLines (line :: lines) ++ CRLF ++ rest) =
      some ((renderLines (line :: lines)).length - 2) := by
    induction lines generalizing line with
    | nil =>
        have hhere := firstIndex_double_here crlf_ne_nil crlf_unbordered hline rest
        simp only [renderLines_cons, renderLines_nil, List.append_nil, List.append_assoc,
          List.length_append, Parser.crlf_length] at hhere ⊢
        rw [hhere, Nat.add_sub_cancel]
    | cons next lines ih =>
        obtain ⟨hnext, hne⟩ := hlines next (by simp)
        have hrest := ih hnext fun l hl => hlines l (by simp [hl])
        have hstart : ¬ CRLF <+: renderLines (next :: lines) ++ CRLF ++ rest := by
          intro hat
          have hzero : findCrlf (renderLines (next :: lines) ++ CRLF ++ rest) =
              some next.length := by
            simp only [renderLines_cons, List.append_assoc]
            rw [← List.append_assoc]
            exact findCrlf_line hnext _
          obtain ⟨-, -, hnone⟩ := (firstIndex_eq_some_iff).mp hzero
          exact hnone 0 (List.length_pos_iff.mpr hne) (by simpa using hat)
        have hdouble := firstIndex_double crlf_ne_nil crlf_unbordered hline hstart
        rw [hrest] at hdouble
        rw [renderLines_cons line]
        simp only [List.append_assoc] at hdouble ⊢
        rw [hdouble, Option.map_some]
        simp only [renderLines_cons, List.length_append, Parser.crlf_length]
        congr 1
        omega
  unfold findHeaderTerminator
  rw [List.drop_zero, hfirst]
  simp only [renderLines_cons, List.length_append, Parser.crlf_length]
  omega

/-! ## The byte check -/

theorem hasInvalidByte_append (previous : Option Byte) (first rest : List Byte) :
    hasInvalidByte previous (first ++ rest) =
      (hasInvalidByte previous first ||
        hasInvalidByte (first.getLast?.or previous) rest) := by
  induction first generalizing previous with
  | nil => simp [hasInvalidByte]
  | cons c first ih =>
      have hlast : (c :: first).getLast?.or previous = first.getLast?.or (some c) := by
        cases first with
        | nil => rfl
        | cons d first =>
            rw [List.getLast?_cons_cons, List.getLast?_cons]
            rfl
      rw [List.cons_append, hasInvalidByte, hasInvalidByte, ih, hlast]
      simp only [Bool.or_assoc]

theorem hasInvalidByte_of_append {previous : Option Byte} {first rest : List Byte}
    (h : hasInvalidByte previous (first ++ rest) = false) :
    hasInvalidByte previous first = false := by
  rw [hasInvalidByte_append, Bool.or_eq_false_iff] at h
  exact h.1

namespace Parser

/-! ## The next line -/

theorem unparsed_withPos {p : Parser} {front rest : List Byte}
    (hunparsed : p.unparsed = front ++ rest) :
    ({ p with parsePos := p.parsePos + front.length } : Parser).unparsed = rest := by
  have hdrop := congrArg (List.drop front.length) hunparsed
  rw [List.drop_left, Parser.unparsed, List.drop_drop] at hdrop
  exact hdrop

/-- What a state function does when the next line is known. -/
theorem withLine_line (checked : Bool) (stay : ParserState)
    (use : ℕ → List Byte → Parser → Parsed ParserState) {p : Parser} {line rest : List Byte}
    (hunparsed : p.unparsed = line ++ CRLF ++ rest) (hline : findCrlf line = none) :
    p.withLine checked stay use =
      if checked && hasInvalidByte (p.byteBefore p.parsePos) (line ++ [CR]) then p.fail
      else use p.parsePos line { p with parsePos := p.parsePos + line.length + 2 } := by
  have htake : p.unparsed.take (line.length + 1) = line ++ [CR] := by
    rw [hunparsed, CRLF, List.append_assoc, List.take_append]
    simp
  have htake' : p.unparsed.take line.length = line := by
    rw [hunparsed, List.append_assoc, List.take_left]
  unfold withLine
  rw [hunparsed, findCrlf_line hline rest, ← hunparsed]
  dsimp only
  rw [htake, htake']

end Parser

end Http
end Katana
