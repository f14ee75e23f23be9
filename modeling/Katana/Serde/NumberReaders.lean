import Katana.Serde.SkipValue

/-!
# Reading numbers

`parse_size` takes the digits in front of the point, if there is no sign.
`parse_double` takes the whole number or returns nothing.  What they do does not
depend on what follows the value.
-/

namespace Katana
namespace Serde

open Library
open Library.JsonText (Digits Exponent Number)
open Http (Byte isDigit digitValue numeralValue fromChars asciiLower)
open JsonCursor

/-- No byte of a number or a literal comes next. -/
def Apart (rest : List Byte) : Prop :=
  ∀ c ∈ rest.head?, isScalarByte c = false

theorem EndsValue.apart {rest : List Byte} (h : EndsValue rest) : Apart rest := by
  intro c hc
  rcases h with rfl | ⟨d, behind, hskip, hd⟩
  · cases hc
  · cases rest with
    | nil => cases hc
    | cons e rest =>
        obtain rfl : e = c := Option.some.inj hc
        by_cases hspace : isJsonWhitespace e = true
        · simp [isScalarByte, hspace]
        · rw [skipWs_cons (by simpa using hspace)] at hskip
          cases hskip
          simp only [endsScalar, Bool.or_eq_true, decide_eq_true_eq] at hd
          rcases hd with (rfl | rfl) | rfl <;> rfl

theorem Apart.ne {rest : List Byte} (h : Apart rest) {c : Byte} (hc : isScalarByte c = true) :
    rest.head? ≠ some c := by
  intro hhead
  have hnot := h c hhead
  rw [hc] at hnot
  cases hnot

theorem isDigit_eq (c : Byte) : isDigit 10 c = JsonText.isDigit c := by
  have hle {a b : Byte} : (a ≤ b) = (a.toNat ≤ b.toNat) := rfl
  rw [Bool.eq_iff_iff]
  unfold isDigit digitValue JsonText.isDigit
  simp only [hle, Bool.and_eq_true, decide_eq_true_eq]
  have hbounds : (48 : Byte).toNat = 48 ∧ (57 : Byte).toNat = 57 ∧ (97 : Byte).toNat = 97 ∧
      (102 : Byte).toNat = 102 ∧ (65 : Byte).toNat = 65 ∧ (70 : Byte).toNat = 70 :=
    ⟨rfl, rfl, rfl, rfl, rfl, rfl⟩
  rw [hbounds.1, hbounds.2.1, hbounds.2.2.1, hbounds.2.2.2.1, hbounds.2.2.2.2.1,
    hbounds.2.2.2.2.2]
  split_ifs <;> omega

theorem Apart.notDigit {rest : List Byte} (h : Apart rest) :
    ∀ c ∈ rest.head?, isDigit 10 c = false := by
  intro c hc
  rw [isDigit_eq, ← Bool.not_eq_true]
  intro hdigit
  exact h.ne (isScalarByte_digit hdigit) hc

/-- A run of elements with a property ends where one without it comes next. -/
theorem span_run {α : Type*} {p : α → Bool} {run rest : List α} (hrun : ∀ a ∈ run, p a = true)
    (hrest : ∀ a ∈ rest.head?, p a = false) :
    (run ++ rest).takeWhile p = run ∧ (run ++ rest).dropWhile p = rest := by
  rw [List.takeWhile_append_of_pos hrun, List.dropWhile_append_of_pos hrun]
  cases rest with
  | nil => simp
  | cons a rest =>
      have ha := hrest a rfl
      simp [ha]

theorem span_digits (digits : Digits) {rest : List Byte}
    (hrest : ∀ c ∈ rest.head?, isDigit 10 c = false) :
    (digits.text ++ rest).takeWhile (isDigit 10) = digits.text ∧
      (digits.text ++ rest).dropWhile (isDigit 10) = rest := by
  apply span_run _ hrest
  intro c hc
  rw [isDigit_eq]
  exact digits.digits c hc

/-! ## The digits in front of the point -/

theorem behind_notDigit (n : Number) {rest : List Byte} (h : Apart rest) :
    ∀ c ∈ (n.behind ++ rest).head?, isDigit 10 c = false := by
  intro c hc
  unfold JsonText.Number.behind at hc
  cases hfrac : n.frac with
  | some digits =>
      rw [hfrac] at hc
      cases Option.some.inj hc
      rfl
  | none =>
      cases hexponent : n.exponent with
      | some exponent =>
          rw [hfrac, hexponent] at hc
          cases Option.some.inj hc
          rcases exponent.letter_eq with hletter | hletter <;> rw [hletter] <;> rfl
      | none =>
          rw [hfrac, hexponent] at hc
          exact h.notDigit c hc

/-- The value of the digits in front of the point. -/
def wholeValue (n : Number) : ℕ :=
  numeralValue 10 n.whole.text

theorem fromChars_number (n : Number) {rest : List Byte} (h : Apart rest) :
    fromChars 10 (n.text ++ rest) =
      if n.minus then (none, n.text ++ rest)
      else if wholeValue n < 2 ^ 64 then (some (wholeValue n), n.behind ++ rest)
      else (none, n.behind ++ rest) := by
  cases hminus : n.minus with
  | true =>
      have hno : (n.text ++ rest).takeWhile (isDigit 10) = [] := by
        rw [JsonText.Number.text, hminus]
        rfl
      simp [fromChars, hno]
  | false =>
      have hspan := span_digits n.whole (behind_notDigit n h)
      have htext : n.text ++ rest = n.whole.text ++ (n.behind ++ rest) := by
        rw [JsonText.Number.text, hminus]
        simp
      unfold fromChars wholeValue
      rw [htext, hspan.1, hspan.2]
      simp [n.whole.nonempty]

/-- The first byte of a number, which is followed by the digits if it is the sign. -/
theorem number_start (n : Number) (rest : List Byte) :
    ∃ c tail, n.text ++ rest = c :: tail ∧ isScalarByte c = true ∧ (c = 0x2d ↔ n.minus = true) ∧
      (if c = 0x2d || c = 0x2b then tail else c :: tail) =
        n.whole.text ++ (n.behind ++ rest) := by
  rw [JsonText.Number.text]
  cases n.minus with
  | true => exact ⟨0x2d, _, rfl, rfl, by simp, List.append_assoc ..⟩
  | false =>
      cases hwhole : n.whole.text with
      | nil => exact absurd hwhole n.whole.nonempty
      | cons d more =>
          have hd : JsonText.isDigit d = true := n.whole.digits d (by rw [hwhole]; simp)
          have hminus : d ≠ 0x2d := by
            rintro rfl
            cases hd
          have hplus : d ≠ 0x2b := by
            rintro rfl
            cases hd
          refine ⟨d, more ++ (n.behind ++ rest), ?_, isScalarByte_digit hd, ?_, ?_⟩
          · simp
          · simp [hminus]
          · simp [hminus, hplus]

theorem isScalarByte_facts {c : Byte} (hc : isScalarByte c = true) :
    isJsonWhitespace c = false ∧ endsScalar c = false ∧ c ≠ QUOTE ∧ c ≠ OPEN_BRACE ∧
      c ≠ OPEN_BRACKET := by
  simp only [isScalarByte, isMark, Bool.and_eq_true, Bool.not_eq_true', Bool.or_eq_false_iff,
    decide_eq_false_iff_not, decide_eq_true_eq] at hc
  simp [endsScalar, hc]

/-- `parse_size` stops at a point or an exponent. -/
theorem parseSize_number (n : Number) {rest : List Byte} (h : Apart rest) :
    parseSize (n.text ++ rest) =
      if n.minus = false ∧ wholeValue n < 2 ^ 64 then (some (wholeValue n), n.behind ++ rest)
      else (none, n.text ++ rest) := by
  have hchars := fromChars_number n h
  rcases number_start n rest with ⟨c, tail, htext, hc, -, -⟩
  have hfacts := isScalarByte_facts hc
  rw [htext] at hchars ⊢
  unfold parseSize
  rw [skipWs_cons hfacts.1]
  simp only [if_neg hfacts.2.2.1, hchars]
  cases hminus : n.minus with
  | true => simp
  | false =>
      by_cases hword : wholeValue n < 2 ^ 64
      · simp only [hword, and_self, if_true, Bool.false_eq_true, if_false]
      · simp only [hword, and_false, if_false, Bool.false_eq_true]

/-! ## Floating point numbers -/

/-- The function takes the whole text or returns nothing, whatever follows. -/
def TakesWhole {α : Type*} (f : List Byte → Option (α × List Byte)) (text : List Byte) : Prop :=
  (∀ rest, Apart rest → f (text ++ rest) = none) ∨
    ∃ a, ∀ rest, Apart rest → f (text ++ rest) = some (a, rest)

theorem TakesWhole.map {α β : Type*} {f : List Byte → Option (α × List Byte)} {text : List Byte}
    (h : TakesWhole f text) (g : α → β) :
    TakesWhole (fun bytes => (f bytes).map fun result => (g result.1, result.2)) text := by
  rcases h with hnone | ⟨a, ha⟩
  · left
    intro rest hrest
    simp only [hnone rest hrest, Option.map_none]
  · right
    refine ⟨g a, fun rest hrest => ?_⟩
    simp only [ha rest hrest, Option.map_some]

theorem scanExponent_digits {digits : List Byte} (hdigits : ∀ c ∈ digits, isDigit 10 c = true)
    (value : ℕ) : TakesWhole (scanExponent value) digits := by
  induction digits generalizing value with
  | nil =>
      right
      refine ⟨value, fun rest hrest => ?_⟩
      cases rest with
      | nil => rfl
      | cons c rest =>
          have hc := hrest.notDigit c rfl
          rw [List.nil_append, scanExponent, hc]
          rfl
  | cons c digits ih =>
      have hc := hdigits c (by simp)
      by_cases hbig : 100 < value
      · left
        intro rest _
        rw [List.cons_append, scanExponent, hc]
        simp [hbig]
      · have hnext := ih (fun d hd => hdigits d (by simp [hd])) (value * 10 + digitValue c)
        have hstep (rest : List Byte) : scanExponent value (c :: digits ++ rest) =
            scanExponent (value * 10 + digitValue c) (digits ++ rest) := by
          rw [List.cons_append, scanExponent, hc]
          simp [hbig]
        rcases hnext with hnone | ⟨a, ha⟩
        · exact .inl fun rest hrest => (hstep rest).trans (hnone rest hrest)
        · exact .inr ⟨a, fun rest hrest => (hstep rest).trans (ha rest hrest)⟩

/-- The text of an exponent, if there is one. -/
def exponentText (n : Number) : List Byte :=
  match n.exponent with
  | none => []
  | some exponent => exponent.text

theorem behind_whole {n : Number} (h : n.frac = none) : n.behind = exponentText n := by
  rw [Number.behind, h]
  rfl

theorem behind_frac {n : Number} {digits : Digits} (h : n.frac = some digits) :
    n.behind = 0x2e :: (digits.text ++ exponentText n) := by
  rw [Number.behind, h]
  rfl

theorem digits_isDigit (digits : Digits) : ∀ c ∈ digits.text, isDigit 10 c = true := by
  intro c hc
  rw [isDigit_eq]
  exact digits.digits c hc

theorem dropSign_digits (digits : Digits) (rest : List Byte) :
    dropSign (digits.text ++ rest) = digits.text ++ rest := by
  cases htext : digits.text with
  | nil => exact absurd htext digits.nonempty
  | cons d tail =>
      have hd : JsonText.isDigit d = true := digits.digits d (by rw [htext]; simp)
      have hplus : d ≠ 0x2b := by
        rintro rfl
        cases hd
      have hminus : d ≠ 0x2d := by
        rintro rfl
        cases hd
      simp [dropSign, hplus, hminus]

theorem dropSign_exponent (exponent : Exponent) (rest : List Byte) :
    dropSign (exponent.sign.toList ++ exponent.digits.text ++ rest) =
      exponent.digits.text ++ rest := by
  cases hsign : exponent.sign with
  | none => exact dropSign_digits exponent.digits rest
  | some c =>
      have hc := exponent.sign_eq c (by rw [hsign]; rfl)
      rcases hc with rfl | rfl <;> rfl

theorem fastExponent_text (n : Number) : TakesWhole fastExponent (exponentText n) := by
  unfold exponentText
  cases n.exponent with
  | none =>
      right
      refine ⟨0, fun rest hrest => ?_⟩
      cases rest with
      | nil => rfl
      | cons c rest =>
          have hlower : c ≠ 0x65 := fun heq => hrest.ne rfl (congrArg some heq)
          have hupper : c ≠ 0x45 := fun heq => hrest.ne rfl (congrArg some heq)
          simp [fastExponent, hlower, hupper]
  | some exponent =>
      have hletter : (exponent.letter = 0x65 || exponent.letter = 0x45) = true := by
        simpa using exponent.letter_eq
      have hdigits := digits_isDigit exponent.digits
      have hstep (rest : List Byte) (hrest : Apart rest) :
          fastExponent (exponent.text ++ rest) =
            (scanExponent 0 (exponent.digits.text ++ rest)).map fun result =>
              (if exponent.sign = some 0x2d then -(result.1 : ℤ) else result.1, result.2) := by
        have hspan := span_digits exponent.digits hrest.notDigit
        have hhead : (exponent.sign.toList ++ exponent.digits.text ++ rest).head? = some 0x2d ↔
            exponent.sign = some 0x2d := by
          cases hsign : exponent.sign with
          | some c => simp
          | none =>
              cases htext : exponent.digits.text with
              | nil => exact absurd htext exponent.digits.nonempty
              | cons d tail =>
                  have hd : JsonText.isDigit d = true :=
                    exponent.digits.digits d (by rw [htext]; simp)
                  have hminus : d ≠ 0x2d := by
                    rintro rfl
                    cases hd
                  simp [hminus]
        have htext : exponent.text ++ rest =
            exponent.letter :: (exponent.sign.toList ++ exponent.digits.text ++ rest) := rfl
        rw [htext]
        simp only [fastExponent, hletter, if_true, dropSign_exponent, hspan.1, hhead,
          List.isEmpty_iff, exponent.digits.nonempty, if_false]
      have hmap := (scanExponent_digits hdigits 0).map fun value =>
        if exponent.sign = some 0x2d then -(value : ℤ) else (value : ℤ)
      rcases hmap with hnone | ⟨a, ha⟩
      · exact .inl fun rest hrest => (hstep rest hrest).trans (hnone rest hrest)
      · exact .inr ⟨a, fun rest hrest => (hstep rest hrest).trans (ha rest hrest)⟩

theorem fastDouble_text (m : Mantissa) (n : Number) : TakesWhole (fastDouble m) (exponentText n) := by
  by_cases hdot : (m.seenDot && m.fracDigits = 0) = true
  · left
    intro rest _
    rw [fastDouble, if_pos hdot]
  · rcases fastExponent_text n with hnone | ⟨exponent, hsome⟩
    · left
      intro rest hrest
      rw [fastDouble, if_neg hdot, hnone rest hrest]
    · let value : Float :=
        if 0 < m.fracDigits then Float.ofNat m.mantissa * pow10 (-m.fracDigits)
        else Float.ofNat m.mantissa
      by_cases hzero : exponent = 0
      · right
        refine ⟨value, fun rest hrest => ?_⟩
        rw [fastDouble, if_neg hdot, hsome rest hrest]
        exact if_pos hzero
      · by_cases hsmall : (-18 ≤ exponent && exponent ≤ 18) = true
        · right
          refine ⟨value * pow10 exponent, fun rest hrest => ?_⟩
          rw [fastDouble, if_neg hdot, hsome rest hrest]
          exact (if_neg hzero).trans (if_pos hsmall)
        · left
          intro rest hrest
          rw [fastDouble, if_neg hdot, hsome rest hrest]
          exact (if_neg hzero).trans (if_neg hsmall)

/-- The digits of the mantissa: there are too many of them, or the loop goes on behind
them. -/
theorem scanMantissa_digits {digits : List Byte} (hdigits : ∀ c ∈ digits, isDigit 10 c = true)
    (m : Mantissa) : (∀ rest, scanMantissa m (digits ++ rest) = none) ∨
      ∃ m' : Mantissa, m'.seenDot = m.seenDot ∧
        (m.seenDigit = true ∨ digits ≠ [] → m'.seenDigit = true) ∧
        ∀ rest, scanMantissa m (digits ++ rest) = scanMantissa m' rest := by
  induction digits generalizing m with
  | nil => exact .inr ⟨m, rfl, by simp, fun _ => rfl⟩
  | cons c digits ih =>
      have hc := hdigits c (by simp)
      by_cases hmany : 15 ≤ m.digits
      · left
        intro rest
        rw [List.cons_append, scanMantissa, hc]
        simp [hmany]
      · let next : Mantissa :=
          ⟨m.mantissa * 10 + digitValue c, m.digits + 1,
            if m.seenDot then m.fracDigits + 1 else m.fracDigits, true, m.seenDot⟩
        have hstep (rest : List Byte) : scanMantissa m (c :: digits ++ rest) =
            scanMantissa next (digits ++ rest) := by
          rw [List.cons_append, scanMantissa, hc]
          simp [hmany, next]
        rcases ih (fun d hd => hdigits d (by simp [hd])) next with hnone | ⟨m', hdot, hdigit, hrest⟩
        · exact .inl fun rest => (hstep rest).trans (hnone rest)
        · exact .inr ⟨m', hdot, fun _ => hdigit (.inl rfl), fun rest => (hstep rest).trans (hrest rest)⟩

/-- The loop stops at the exponent, or behind the number. -/
theorem scanMantissa_stop (m : Mantissa) (n : Number) {rest : List Byte} (hrest : Apart rest) :
    scanMantissa m (exponentText n ++ rest) = some (m, exponentText n ++ rest) := by
  have hstop {c : Byte} {tail : List Byte} (hdigit : isDigit 10 c = false) (hdot : c ≠ 0x2e) :
      scanMantissa m (c :: tail) = some (m, c :: tail) := by
    simp [scanMantissa, hdigit, hdot]
  unfold exponentText
  cases n.exponent with
  | some exponent =>
      have hletter : isDigit 10 exponent.letter = false ∧ exponent.letter ≠ 0x2e := by
        rcases exponent.letter_eq with heq | heq <;> rw [heq] <;> decide
      exact hstop hletter.1 hletter.2
  | none =>
      cases rest with
      | nil => rfl
      | cons c tail =>
          have hdot : c ≠ 0x2e := fun heq => hrest.ne rfl (congrArg some heq)
          exact hstop (hrest.notDigit c rfl) hdot

theorem scanMantissa_number (n : Number) :
    (∀ rest, Apart rest → scanMantissa {} (n.whole.text ++ (n.behind ++ rest)) = none) ∨
      ∃ m : Mantissa, m.seenDigit = true ∧ ∀ rest, Apart rest →
        scanMantissa {} (n.whole.text ++ (n.behind ++ rest)) = some (m, exponentText n ++ rest) := by
  rcases scanMantissa_digits (digits_isDigit n.whole) {} with hnone | ⟨m, hdot, hdigit, hwhole⟩
  · exact .inl fun rest _ => hnone _
  · have hseen := hdigit (.inr n.whole.nonempty)
    cases hfrac : n.frac with
    | none =>
        rw [behind_whole hfrac]
        right
        refine ⟨m, hseen, fun rest hrest => ?_⟩
        rw [hwhole, scanMantissa_stop m n hrest]
    | some digits =>
        rw [behind_frac hfrac]
        have hpoint (rest : List Byte) : scanMantissa m (0x2e :: rest) =
            scanMantissa { m with seenDot := true } rest := by
          have hdotDigit : isDigit 10 (0x2e : Byte) = false := rfl
          have hnot : m.seenDot = false := hdot
          simp [scanMantissa, hdotDigit, hnot]
        rcases scanMantissa_digits (digits_isDigit digits) { m with seenDot := true } with
          hnone | ⟨m', -, hdigit', hfrac⟩
        · left
          intro rest _
          rw [hwhole, List.cons_append, List.append_assoc, hpoint, hnone]
        · right
          refine ⟨m', hdigit' (.inl hseen), fun rest hrest => ?_⟩
          rw [hwhole, List.cons_append, List.append_assoc, hpoint, hfrac,
            scanMantissa_stop m' n hrest]

/-! ## `std::from_chars` -/

theorem asciiLower_digit {c : Byte} (hc : JsonText.isDigit c = true) : asciiLower c = c := by
  simp only [JsonText.isDigit, Bool.and_eq_true, decide_eq_true_eq] at hc
  have hnot : ¬ ((65 : Byte) ≤ c ∧ c ≤ 90) := by
    rintro ⟨hlow, -⟩
    have hle : (65 : Byte).toNat ≤ c.toNat := hlow
    have hhigh : c.toNat ≤ (0x39 : Byte).toNat := hc.2
    have hnumbers : (65 : Byte).toNat = 65 ∧ (0x39 : Byte).toNat = 57 := ⟨rfl, rfl⟩
    omega
  simp [asciiLower, hnot]

/-- A word that begins with a letter is no number. -/
theorem dropWord_digits {w : Byte} (hw : JsonText.isDigit w = false) (word : List Byte)
    (digits : Digits) (rest : List Byte) : dropWord (w :: word) (digits.text ++ rest) = none := by
  cases htext : digits.text with
  | nil => exact absurd htext digits.nonempty
  | cons d tail =>
      have hd : JsonText.isDigit d = true := digits.digits d (by rw [htext]; simp)
      have hne : d ≠ w := by
        rintro rfl
        rw [hd] at hw
        cases hw
      simp [dropWord, asciiLower_digit hd, hne]

theorem exponentPart_text (n : Number) :
    ∃ exponent, ∀ rest, Apart rest → exponentPart (exponentText n ++ rest) = (exponent, rest) := by
  unfold exponentText
  cases n.exponent with
  | none =>
      refine ⟨0, fun rest hrest => ?_⟩
      cases rest with
      | nil => rfl
      | cons c rest =>
          have hlower : asciiLower c ≠ 0x65 := by
            intro heq
            unfold asciiLower at heq
            split_ifs at heq with hupper
            · have hc : c = 0x45 := by
                have hsub : c = 0x65 - 0x20 := by
                  rw [← heq]
                  simp
                rw [hsub]
                rfl
              exact hrest.ne rfl (congrArg some hc)
            · exact hrest.ne rfl (congrArg some heq)
          simp [exponentPart, hlower]
  | some exponent =>
      refine ⟨if (exponent.sign.toList ++ exponent.digits.text).head? = some 0x2d then
        -(numeralValue 10 exponent.digits.text : ℤ) else numeralValue 10 exponent.digits.text,
        fun rest hrest => ?_⟩
      have hletter : asciiLower exponent.letter = 0x65 := by
        rcases exponent.letter_eq with heq | heq <;> rw [heq] <;> rfl
      have hspan := span_digits exponent.digits hrest.notDigit
      have hhead : (exponent.sign.toList ++ exponent.digits.text ++ rest).head? =
          (exponent.sign.toList ++ exponent.digits.text).head? := by
        cases hbytes : exponent.sign.toList ++ exponent.digits.text with
        | nil => exact absurd (List.append_eq_nil_iff.mp hbytes).2 exponent.digits.nonempty
        | cons c tail => rfl
      have htext : exponent.text ++ rest =
          exponent.letter :: (exponent.sign.toList ++ exponent.digits.text ++ rest) := rfl
      have hthere : (asciiLower exponent.letter ≠ 0x65 || exponent.digits.text.isEmpty) = false := by
        simp [hletter, exponent.digits.nonempty]
      rw [htext]
      simp only [exponentPart, dropSign_exponent, hspan.1, hspan.2, hthere, hhead,
        Bool.false_eq_true, if_false]

theorem decimal_number (n : Number) : TakesWhole decimal (n.whole.text ++ n.behind) := by
  rcases exponentPart_text n with ⟨exponent, hexponent⟩
  have hfrac : ∃ frac, ∀ rest, Apart rest →
      fracPart (n.behind ++ rest) = (frac, exponentText n ++ rest) := by
    cases hdigits : n.frac with
    | none =>
        rw [behind_whole hdigits]
        refine ⟨[], fun rest hrest => ?_⟩
        have hpoint : (exponentText n ++ rest).head? ≠ some 0x2e := by
          unfold exponentText
          cases n.exponent with
          | none => exact hrest.ne rfl
          | some exponent =>
              intro hhead
              have hletter : exponent.letter = 0x2e := Option.some.inj hhead
              rcases exponent.letter_eq with heq | heq <;> rw [heq] at hletter <;> cases hletter
        rw [fracPart, if_neg hpoint]
    | some digits =>
        rw [behind_frac hdigits]
        refine ⟨digits.text, fun rest hrest => ?_⟩
        have hstop : ∀ c ∈ (exponentText n ++ rest).head?, isDigit 10 c = false := by
          unfold exponentText
          cases n.exponent with
          | none => exact hrest.notDigit
          | some exponent =>
              intro c hc
              cases Option.some.inj hc
              rcases exponent.letter_eq with heq | heq <;> rw [heq] <;> rfl
        have hspan := span_digits digits hstop
        have hpoint : ((0x2e : Byte) :: (digits.text ++ (exponentText n ++ rest))).head? =
            some 0x2e := rfl
        rw [List.cons_append, List.append_assoc, fracPart, if_pos hpoint, List.tail_cons,
          List.span_eq_takeWhile_dropWhile, hspan.1, hspan.2]
  rcases hfrac with ⟨frac, hfrac⟩
  have hspan (rest : List Byte) (hrest : Apart rest) := span_digits n.whole (behind_notDigit n hrest)
  have hne : n.whole.text ++ frac ≠ [] := by
    simp [n.whole.nonempty]
  let mantissa := numeralValue 10 (n.whole.text ++ frac)
  let power := exponent - frac.length
  let value := Float.ofScientific mantissa (power < 0) power.natAbs
  by_cases hrange : (value.isInf || (value == 0.0 && mantissa ≠ 0)) = true
  · left
    intro rest hrest
    rw [List.append_assoc, decimal]
    simp only [(hspan rest hrest).1, (hspan rest hrest).2, hfrac rest hrest, hexponent rest hrest,
      if_neg hne]
    exact if_pos hrange
  · right
    refine ⟨value, fun rest hrest => ?_⟩
    rw [List.append_assoc, decimal]
    simp only [(hspan rest hrest).1, (hspan rest hrest).2, hfrac rest hrest, hexponent rest hrest,
      if_neg hne]
    exact if_neg hrange

theorem fromCharsDouble_number (n : Number) : TakesWhole fromCharsDouble n.text := by
  have hstep (rest : List Byte) : fromCharsDouble (n.text ++ rest) =
      (decimal (n.whole.text ++ n.behind ++ rest)).map fun result =>
        (if n.minus then -result.1 else result.1, result.2) := by
    have hinfinity : Http.bytesOf "infinity" = 0x69 :: Http.bytesOf "nfinity" := rfl
    have hinf : Http.bytesOf "inf" = 0x69 :: Http.bytesOf "nf" := rfl
    have hnan : Http.bytesOf "nan" = 0x6e :: Http.bytesOf "an" := rfl
    rcases number_start n rest with ⟨c, tail, htext, -, hminus, -⟩
    have hnegative : (n.text ++ rest).head? = some 0x2d ↔ n.minus = true := by
      rw [htext, List.head?_cons, Option.some.injEq, hminus]
    have hdigits : (if n.minus = true then (n.text ++ rest).tail else n.text ++ rest) =
        n.whole.text ++ (n.behind ++ rest) := by
      rw [JsonText.Number.text]
      cases n.minus <;> simp
    unfold fromCharsDouble
    simp only [hnegative, hdigits, hinfinity, hinf, hnan,
      dropWord_digits (show JsonText.isDigit 0x69 = false from rfl),
      dropWord_digits (show JsonText.isDigit 0x6e = false from rfl), List.append_assoc]
  have hmap := (decimal_number n).map fun value => if n.minus then -value else value
  rcases hmap with hnone | ⟨a, ha⟩
  · exact .inl fun rest hrest => (hstep rest).trans (hnone rest hrest)
  · exact .inr ⟨a, fun rest hrest => (hstep rest).trans (ha rest hrest)⟩

/-- `parse_double` takes the whole number or returns nothing. -/
theorem parseDouble_number (n : Number) :
    (∀ rest, Apart rest → (parseDouble (n.text ++ rest)).1 = none) ∨
      ∃ value, ∀ rest, Apart rest → parseDouble (n.text ++ rest) = (some value, rest) := by
  let fallback (rest : List Byte) : Option Float × JsonCursor :=
    (fromCharsDouble (n.text ++ rest)).elim (none, n.text ++ rest) fun p => (some p.1, p.2)
  have hstep (rest : List Byte) : parseDouble (n.text ++ rest) =
      (scanMantissa {} (n.whole.text ++ (n.behind ++ rest))).elim (fallback rest) fun p =>
        if !p.1.seenDigit then (none, n.text ++ rest)
        else (fastDouble p.1 p.2).elim (fallback rest) fun q =>
          (some (if n.minus then -q.1 else q.1), q.2) := by
    rcases number_start n rest with ⟨c, tail, htext, hc, hminus, hunsigned⟩
    have hfacts := isScalarByte_facts hc
    simp only [fallback]
    rw [htext]
    unfold parseDouble
    rw [skipWs_cons hfacts.1]
    simp only [if_neg hfacts.2.2.1, hunsigned]
    cases hslow : fromCharsDouble (c :: tail) with
    | none =>
        cases hscan : scanMantissa {} (n.whole.text ++ (n.behind ++ rest)) with
        | none => simp
        | some p => cases hfast : fastDouble p.1 p.2 <;> simp [hfast, hminus]
    | some q =>
        cases hscan : scanMantissa {} (n.whole.text ++ (n.behind ++ rest)) with
        | none => simp
        | some p => cases hfast : fastDouble p.1 p.2 <;> simp [hfast, hminus]
  have hfallback : (∀ rest, Apart rest → (fallback rest).1 = none) ∨
      ∃ value, ∀ rest, Apart rest → fallback rest = (some value, rest) := by
    rcases fromCharsDouble_number n with hnone | ⟨value, hsome⟩
    · left
      intro rest hrest
      simp only [fallback, hnone rest hrest, Option.elim_none]
    · right
      refine ⟨value, fun rest hrest => ?_⟩
      simp only [fallback, hsome rest hrest, Option.elim_some]
  rcases scanMantissa_number n with hmany | ⟨m, hdigit, hmantissa⟩
  · rcases hfallback with hnone | ⟨value, hsome⟩
    · left
      intro rest hrest
      rw [hstep, hmany rest hrest]
      exact hnone rest hrest
    · right
      refine ⟨value, fun rest hrest => ?_⟩
      rw [hstep, hmany rest hrest]
      exact hsome rest hrest
  · rcases fastDouble_text m n with hslow | ⟨value, hfast⟩
    · rcases hfallback with hnone | ⟨value, hsome⟩
      · left
        intro rest hrest
        rw [hstep, hmantissa rest hrest, Option.elim_some]
        simp only [hdigit, hslow rest hrest, Option.elim_none]
        exact hnone rest hrest
      · right
        refine ⟨value, fun rest hrest => ?_⟩
        rw [hstep, hmantissa rest hrest, Option.elim_some]
        simp only [hdigit, hslow rest hrest, Option.elim_none]
        exact hsome rest hrest
    · right
      refine ⟨if n.minus then -value else value, fun rest hrest => ?_⟩
      rw [hstep, hmantissa rest hrest, Option.elim_some]
      simp only [hdigit, hfast rest hrest, Option.elim_some]
      rfl

end Serde
end Katana
