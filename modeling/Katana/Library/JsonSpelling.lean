import Katana.Library.JsonText

/-!
# What a JSON object says and how short it can be

The members that an object decodes to, in any order.  A byte that does not stand for
itself takes two or six bytes in a string, and a number is not shorter than its
decimal digits, so the members bound the length of every text that says them.
-/

namespace Katana
namespace Library
namespace JsonText

/-! ## Commas -/

theorem commaSeparated_cons (text : Text) (rest : List Text) :
    commaSeparated (text :: rest) = text ++ rest.flatMap (COMMA :: ·) := by
  induction rest generalizing text with
  | nil => simp [commaSeparated]
  | cons next rest ih =>
      rw [commaSeparated, ih, List.flatMap_cons]
      rfl

theorem commaSeparated_length {texts : List Text} (hne : texts ≠ []) :
    (commaSeparated texts).length + 1 = (texts.map List.length).sum + texts.length := by
  cases texts with
  | nil => exact absurd rfl hne
  | cons text rest =>
      have hrest : ∀ rest : List Text, (rest.flatMap (COMMA :: ·)).length =
          (rest.map List.length).sum + rest.length := by
        intro rest
        induction rest with
        | nil => rfl
        | cons next rest ih =>
            simp only [List.flatMap_cons, List.length_append, ih, List.length_cons, List.map_cons,
              List.sum_cons]
            omega
      rw [commaSeparated_cons, List.length_append, hrest]
      simp only [List.map_cons, List.sum_cons, List.length_cons]
      omega

/-! ## Strings -/

/-- The least number of bytes that stand for a byte in a string. -/
def spellingLength (c : UInt8) : ℕ :=
  if isPlain c then 1
  else if c ∈ [QUOTE, BACKSLASH, 0x08, 0x0c, 0x0a, 0x0d, 0x09] then 2
  else 6

def spelling (bytes : Text) : ℕ :=
  (bytes.map spellingLength).sum

theorem spellingLength_plain {c : UInt8} (hc : isPlain c = true) : spellingLength c = 1 := by
  simp [spellingLength, hc]

theorem one_le_spellingLength (c : UInt8) : 1 ≤ spellingLength c := by
  unfold spellingLength
  split_ifs <;> omega

theorem spellingLength_le (c : UInt8) : spellingLength c ≤ 6 := by
  unfold spellingLength
  split_ifs <;> omega

theorem spelling_append (a b : Text) : spelling (a ++ b) = spelling a + spelling b := by
  simp [spelling]

theorem spelling_cons (c : UInt8) (bytes : Text) :
    spelling (c :: bytes) = spellingLength c + spelling bytes := by
  simp [spelling]

theorem spelling_plain {bytes : Text} (h : ∀ c ∈ bytes, isPlain c = true) :
    spelling bytes = bytes.length := by
  induction bytes with
  | nil => rfl
  | cons c bytes ih =>
      rw [spelling_cons, spellingLength_plain (h c List.mem_cons_self),
        ih fun d hd => h d (List.mem_cons_of_mem c hd), List.length_cons, Nat.add_comm]

theorem length_le_spelling (bytes : Text) : bytes.length ≤ spelling bytes := by
  induction bytes with
  | nil => exact le_rfl
  | cons c bytes ih =>
      have hc := one_le_spellingLength c
      rw [spelling_cons, List.length_cons]
      omega

/-- Only a string of plain bytes is spelled with one byte for each. -/
theorem spelling_eq_length_iff (bytes : Text) :
    spelling bytes = bytes.length ↔ ∀ c ∈ bytes, isPlain c = true := by
  constructor
  · intro h
    induction bytes with
    | nil => simp
    | cons c bytes ih =>
        have hlength := length_le_spelling bytes
        have hone := one_le_spellingLength c
        rw [spelling_cons, List.length_cons] at h
        have hc : isPlain c = true := by
          by_contra hplain
          have htwo : 2 ≤ spellingLength c := by
            unfold spellingLength
            rw [if_neg hplain]
            split_ifs <;> omega
          omega
        exact List.forall_mem_cons.mpr ⟨hc, ih (by omega)⟩
  · exact spelling_plain

theorem isPlain_high {n : ℕ} (hlow : 0x80 ≤ n) (hhigh : n < 0x100) : isPlain n.toUInt8 = true := by
  have hall : ∀ n < 0x100, 0x80 ≤ n → isPlain n.toUInt8 = true := by
    decide +kernel
  exact hall n hhigh hlow

theorem spelling_high (numbers : List ℕ) (h : ∀ n ∈ numbers, 0x80 ≤ n ∧ n < 0x100) :
    spelling (numbers.map Nat.toUInt8) = numbers.length := by
  have hplain : ∀ c ∈ numbers.map Nat.toUInt8, isPlain c = true := by
    intro c hc
    rcases List.mem_map.mp hc with ⟨n, hn, rfl⟩
    exact isPlain_high (h n hn).1 (h n hn).2
  rw [spelling_plain hplain, List.length_map]

/-- The encoding of a code unit is spelled with the six bytes of its escape. -/
theorem spelling_utf8_unit {n : ℕ} (hn : n < 0x10000) : spelling (utf8 n) ≤ 6 := by
  unfold utf8
  split_ifs with hone htwo
  · have hc := spellingLength_le n.toUInt8
    simpa [spelling] using hc
  · have h := spelling_high [0xc0 + n / 0x40, 0x80 + n % 0x40] (by simp; omega)
    simp only [List.map_cons, List.map_nil, List.length_cons, List.length_nil] at h
    omega
  · have h := spelling_high [0xe0 + n / 0x1000, 0x80 + n / 0x40 % 0x40,
      0x80 + n % 0x40] (by simp; omega)
    simp only [List.map_cons, List.map_nil, List.length_cons, List.length_nil] at h
    omega

theorem spelling_utf8_pair {n : ℕ} (hlow : 0x10000 ≤ n) (hhigh : n < 0x110000) :
    spelling (utf8 n) ≤ 12 := by
  have h := spelling_high [0xf0 + n / 0x40000, 0x80 + n / 0x1000 % 0x40,
    0x80 + n / 0x40 % 0x40, 0x80 + n % 0x40] (by simp; omega)
  simp only [List.map_cons, List.map_nil, List.length_cons, List.length_nil] at h
  have hutf8 : utf8 n = [(0xf0 + n / 0x40000).toUInt8, (0x80 + n / 0x1000 % 0x40).toUInt8,
      (0x80 + n / 0x40 % 0x40).toUInt8, (0x80 + n % 0x40).toUInt8] := by
    unfold utf8
    rw [if_neg (by omega), if_neg (by omega), if_neg (by omega)]
  rw [hutf8, h]
  omega

theorem hexValue_lt {c : UInt8} {d : ℕ} (h : hexValue c = some d) : d < 16 := by
  have hall : ∀ c : UInt8, ∀ d ∈ hexValue c, d < 16 := by
    decide +kernel
  exact hall c d h

theorem hexUnit_facts {text rest : Text} {unit : ℕ} (h : hexUnit text = some (unit, rest)) :
    rest.length + 4 = text.length ∧ unit < 0x10000 := by
  unfold hexUnit at h
  split at h
  next a b c d behind =>
    split at h
    next a' b' c' d' ha hb hc hd =>
      have hunit := Prod.mk.inj (Option.some.inj h)
      have ha := hexValue_lt ha
      have hb := hexValue_lt hb
      have hc := hexValue_lt hc
      have hd := hexValue_lt hd
      have hbound : unit < 0x10000 := by omega
      refine ⟨?_, hbound⟩
      rw [← hunit.2]
      rfl
    next => cases h
  next => cases h

theorem lowSurrogate_facts {text rest : Text} {unit : ℕ}
    (h : lowSurrogate text = some (unit, rest)) :
    rest.length + 6 = text.length ∧ 0xdc00 ≤ unit ∧ unit < 0xe000 := by
  unfold lowSurrogate at h
  split at h
  next c d behind =>
    split at h
    next =>
      have hfilter := Option.filter_eq_some_iff.mp h
      have hunit := hexUnit_facts hfilter.1
      have hlow := hfilter.2
      simp only [isLowSurrogate, Bool.and_eq_true, decide_eq_true_eq] at hlow
      simp only [List.length_cons]
      omega
    next => cases h
  next => cases h

theorem decodeUnicode_spelling {text bytes behind : Text}
    (h : decodeUnicode text = some (bytes, behind)) :
    spelling bytes + behind.length ≤ text.length + 2 := by
  unfold decodeUnicode at h
  split at h
  next => cases h
  next unit rest hunit =>
    have hrest := hexUnit_facts hunit
    split at h
    next hhigh =>
      simp only [isHighSurrogate, Bool.and_eq_true, decide_eq_true_eq] at hhigh
      rw [Option.map_eq_some_iff] at h
      rcases h with ⟨⟨low, after⟩, hlow, heq⟩
      have hfacts := lowSurrogate_facts hlow
      have hpair : spelling (utf8 (joinSurrogates unit low)) ≤ 12 := by
        apply spelling_utf8_pair <;> unfold joinSurrogates <;> omega
      have hbytes : utf8 (joinSurrogates unit low) = bytes := (Prod.mk.inj heq).1
      have hbehind : after = behind := (Prod.mk.inj heq).2
      rw [← hbytes, ← hbehind]
      omega
    next =>
      split at h
      next => cases h
      next =>
        cases h
        have hutf8 := spelling_utf8_unit hrest.2
        omega

theorem spellingLength_escaped :
    ∀ c ∈ [QUOTE, BACKSLASH, 0x2f, 0x08, 0x0c, 0x0a, 0x0d, 0x09], spellingLength c ≤ 2 := by
  decide +kernel

theorem shortEscape_spelling {e byte : UInt8} (h : shortEscape e = some byte) :
    spellingLength byte ≤ 2 := by
  apply spellingLength_escaped
  unfold shortEscape at h
  split_ifs at h with hself
  · cases h
    simp only [Bool.or_eq_true, decide_eq_true_eq] at hself
    rcases hself with (rfl | rfl) | rfl <;> simp
  all_goals
    cases h
    simp

theorem decodeChar_spelling {c : UInt8} {rest bytes behind : Text}
    (h : decodeChar c rest = some (bytes, behind)) :
    spelling bytes + behind.length ≤ rest.length + 1 := by
  unfold decodeChar at h
  split_ifs at h with hbackslash hplain
  · split at h
    next => cases h
    next e rest =>
      rw [List.length_cons]
      split at h
      next =>
        have hunicode := decodeUnicode_spelling h
        omega
      next =>
        rw [Option.map_eq_some_iff] at h
        rcases h with ⟨byte, hshort, heq⟩
        cases heq
        have htwo := shortEscape_spelling hshort
        rw [spelling_cons]
        simp only [spelling, List.map_nil, List.sum_nil]
        omega
  · cases h
    rw [spelling_cons, spellingLength_plain hplain]
    simp only [spelling, List.map_nil, List.sum_nil]
    omega

/-- No spelling of a string is shorter than the sum for its bytes. -/
theorem decodeString_spelling : ∀ (n : ℕ) (text bytes : Text), text.length ≤ n →
    decodeString text = some bytes → spelling bytes ≤ text.length := by
  intro n
  induction n with
  | zero =>
      intro text bytes hlength h
      rw [List.eq_nil_of_length_eq_zero (Nat.le_zero.mp hlength)] at h
      cases h
      exact Nat.zero_le _
  | succ n ih =>
      intro text bytes hlength h
      cases text with
      | nil =>
          cases h
          exact Nat.le_refl 0
      | cons c rest =>
          rw [List.length_cons] at hlength ⊢
          cases hchar : decodeChar c rest with
          | none =>
              rw [decodeString, List.length_cons, decodeWith, hchar] at h
              cases h
          | some result =>
              rcases result with ⟨front, behind⟩
              rw [decodeString_cons hchar, Option.map_eq_some_iff] at h
              rcases h with ⟨back, hback, rfl⟩
              have hfront := decodeChar_spelling hchar
              have hlen := decodeChar_length hchar
              have hrest := ih behind back (by omega) hback
              rw [spelling_append]
              omega

/-- Plain bytes stand for themselves. -/
theorem stringText_plain {bytes : Text} (h : ∀ c ∈ bytes, isPlain c = true) :
    StringText bytes := by
  induction bytes with
  | nil => exact .nil
  | cons c bytes ih =>
      have hrest := ih fun d hd => h d (List.mem_cons_of_mem c hd)
      exact .plain (h c List.mem_cons_self) hrest

theorem decodeString_plain {bytes : Text} (h : ∀ c ∈ bytes, isPlain c = true) :
    decodeString bytes = some bytes := by
  induction bytes with
  | nil => rfl
  | cons c bytes ih =>
      have hc := h c List.mem_cons_self
      have hbackslash : c ≠ BACKSLASH := by
        intro heq
        rw [heq] at hc
        cases hc
      have hchar : decodeChar c bytes = some ([c], bytes) := by
        simp [decodeChar, hbackslash, hc]
      rw [decodeString_cons hchar, ih fun d hd => h d (List.mem_cons_of_mem c hd)]
      rfl

/-! ## Values -/

/-- The number that digits stand for. -/
def digitsValue (digits : Text) : ℕ :=
  digits.foldl (fun value c => value * 10 + (c.toNat - 0x30)) 0

theorem foldl_digits_lt {digits : Text} (h : ∀ c ∈ digits, isDigit c = true) (value : ℕ) :
    digits.foldl (fun value c => value * 10 + (c.toNat - 0x30)) value <
      (value + 1) * 10 ^ digits.length := by
  induction digits generalizing value with
  | nil => simp
  | cons c digits ih =>
      have hc := h c List.mem_cons_self
      have hnine : c.toNat - 0x30 ≤ 9 := by
        simp only [isDigit, Bool.and_eq_true, decide_eq_true_eq] at hc
        have hle : c.toNat ≤ 0x39 := hc.2
        omega
      have hrest := ih (fun d hd => h d (List.mem_cons_of_mem c hd))
        (value * 10 + (c.toNat - 0x30))
      rw [List.foldl_cons, List.length_cons, pow_succ']
      calc
        _ < (value * 10 + (c.toNat - 0x30) + 1) * 10 ^ digits.length := hrest
        _ ≤ ((value + 1) * 10) * 10 ^ digits.length := Nat.mul_le_mul_right _ (by omega)
        _ = (value + 1) * (10 * 10 ^ digits.length) := by rw [Nat.mul_assoc]

theorem digitsValue_lt (digits : Digits) :
    digitsValue digits.text < 10 ^ digits.text.length := by
  have h := foldl_digits_lt digits.digits 0
  rw [Nat.zero_add, Nat.one_mul] at h
  exact h

/-- What a value without parts stands for. -/
inductive Decoded where
  | string (bytes : Text)
  | integer (value : ℤ)

/-- A number without a fraction and an exponent. -/
structure Number.IsInteger (n : Number) (value : ℤ) : Prop where
  frac : n.frac = none
  exponent : n.exponent = none
  value : value = if n.minus then -(digitsValue n.whole.text : ℤ) else digitsValue n.whole.text

def DecodesTo (text : Text) : Decoded → Prop
  | .string bytes => ∃ inner, StringText inner ∧ text = quoted inner ∧
      decodeString inner = some bytes
  | .integer value => ∃ n : Number, text = n.text ∧ n.IsInteger value

theorem DecodesTo.isValue {text : Text} {decoded : Decoded} (h : DecodesTo text decoded) :
    IsValue 0 text := by
  cases decoded with
  | string bytes =>
      rcases h with ⟨inner, hinner, rfl, -⟩
      exact .string hinner
  | integer value =>
      rcases h with ⟨n, rfl, -⟩
      exact .number n

/-- A lower bound for the length of a value. -/
def Decoded.shortest : Decoded → ℕ
  | .string bytes => spelling bytes + 2
  | .integer value => (Nat.toDigits 10 value.natAbs).length + if value < 0 then 1 else 0

theorem DecodesTo.shortest_le {text : Text} {decoded : Decoded} (h : DecodesTo text decoded) :
    decoded.shortest ≤ text.length := by
  cases decoded with
  | string bytes =>
      rcases h with ⟨inner, -, rfl, hbytes⟩
      have hspelling := decodeString_spelling _ _ _ le_rfl hbytes
      simp only [Decoded.shortest, quoted, List.cons_append, List.length_cons, List.length_append,
        List.length_nil]
      omega
  | integer value =>
      rcases h with ⟨n, rfl, hinteger⟩
      have hvalue := hinteger.value
      have hlt := digitsValue_lt n.whole
      have hpos : 0 < n.whole.text.length := List.length_pos_of_ne_nil n.whole.nonempty
      have hdigits : (Nat.toDigits 10 value.natAbs).length ≤ n.whole.text.length := by
        apply (Nat.length_toDigits_le_iff (by omega) hpos).mpr
        have habs : value.natAbs = digitsValue n.whole.text := by
          rw [hvalue]
          split_ifs <;> simp
        omega
      have hsign : (if value < 0 then 1 else 0) ≤ (if n.minus then [0x2d] else ([] : Text)).length := by
        cases hminus : n.minus with
        | true =>
            rw [if_pos rfl]
            split_ifs <;> simp
        | false =>
            rw [hminus] at hvalue
            have hnot : ¬ value < 0 := by
              simp only [Bool.false_eq_true, if_false] at hvalue
              omega
            rw [if_neg hnot]
            exact Nat.zero_le _
      simp only [Decoded.shortest, Number.text, List.length_append]
      omega

/-! ## Objects -/

def Member.Decodes (m : Member) (entry : Text × Decoded) : Prop :=
  decodeString m.name = some entry.1 ∧ DecodesTo m.element.value entry.2

/-- The text is an object that has exactly these members, in some order. -/
def IsObjectOf (text : Text) (entries : List (Text × Decoded)) : Prop :=
  ∃ (before blank after : Space) (members : List Member) (order : List (Text × Decoded)),
    order.Perm entries ∧ List.Forall₂ Member.Decodes members order ∧
      text = before.text ++ (objectText (if members.isEmpty then blank.text
        else commaSeparated (members.map Member.text)) ++ after.text)

/-- The quotes, the colon, the name and the value. -/
def entryLength (entry : Text × Decoded) : ℕ :=
  spelling entry.1 + 3 + entry.2.shortest

theorem Member.Decodes.length_le {m : Member} {entry : Text × Decoded} (h : m.Decodes entry) :
    entryLength entry ≤ m.text.length := by
  have hname := decodeString_spelling _ _ _ le_rfl h.1
  have hvalue := h.2.shortest_le
  simp only [entryLength, Member.text, Element.text, quoted, List.cons_append, List.length_cons,
    List.length_append, List.length_nil]
  omega

theorem forall₂_length_le {members : List Member} {order : List (Text × Decoded)}
    (h : List.Forall₂ Member.Decodes members order) :
    (order.map entryLength).sum ≤ ((members.map Member.text).map List.length).sum := by
  induction h with
  | nil => exact le_rfl
  | cons hfirst _ ih =>
      have hlength := hfirst.length_le
      simp only [List.map_cons, List.sum_cons]
      omega

/-- An object is not shorter than its members, the commas between them and the braces. -/
theorem IsObjectOf.length_le {text : Text} {entries : List (Text × Decoded)}
    (h : IsObjectOf text entries) (hne : entries ≠ []) :
    (entries.map entryLength).sum + entries.length + 1 ≤ text.length := by
  rcases h with ⟨before, blank, after, members, order, hperm, hdecodes, rfl⟩
  have hlength : members.length = entries.length := by
    rw [hdecodes.length_eq, hperm.length_eq]
  have hmembers : members ≠ [] := by
    intro hnil
    rw [hnil] at hlength
    exact hne (List.eq_nil_of_length_eq_zero hlength.symm)
  have hsum : (entries.map entryLength).sum = (order.map entryLength).sum :=
    (hperm.map entryLength).sum_eq.symm
  have hle := forall₂_length_le hdecodes
  have htexts : members.map Member.text ≠ [] := by
    simpa using hmembers
  have hcommas := commaSeparated_length htexts
  rw [List.length_map] at hcommas
  have hempty : members.isEmpty = false := by
    simpa using hmembers
  simp only [hempty, Bool.false_eq_true, if_false, objectText, List.cons_append, List.length_cons,
    List.length_append, List.length_nil]
  omega

end JsonText
end Library
end Katana
