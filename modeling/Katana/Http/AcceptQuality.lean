import Katana.Http.CaseFolding
import Katana.Http.Negotiation

/-!
# Quality values

An Accept header as a list of media ranges with weights.  The quality of a produced
type is the weight of the most specific range that matches it.  The handlers take the
first range that matches a type at all, and the first type that it matches: weights
are cut off before the ranges are compared.
-/

namespace Katana
namespace Http

open Library
open Serde (trimView isJsonWhitespace COMMA)

/-- A type or a subtype: a token that is no wildcard. -/
structure MediaWord where
  bytes : List Byte
  nonempty : bytes ≠ []
  token : ∀ c ∈ bytes, isTokenChar c = true
  named : bytes ≠ bytesOf "*"

structure MediaType where
  type : MediaWord
  subtype : MediaWord

inductive MediaRange where
  | any
  | every (type : MediaWord)
  | one (mediaType : MediaType)

/-- Spaces and tabs. -/
structure Gap where
  bytes : List Byte
  blank : ∀ c ∈ bytes, isOws c = true

/-- `0` or `1` and decimals, which are zeros behind the `1`. -/
structure Weight where
  whole : Bool
  decimals : Option (List (Fin 10))
  bounded : whole = true → ∀ digits, decimals = some digits → ∀ d ∈ digits, d = 0

structure AcceptItem where
  before : Gap
  range : MediaRange
  /-- A weight, with the gaps around the semicolon in front of it. -/
  weight : Option (Gap × Gap × Weight)
  after : Gap

/-! ## Text -/

def MediaType.text (t : MediaType) : List Byte :=
  t.type.bytes ++ bytesOf "/" ++ t.subtype.bytes

def MediaRange.text : MediaRange → List Byte
  | .any => bytesOf "*/*"
  | .every type => type.bytes ++ bytesOf "/*"
  | .one mediaType => mediaType.text

def Weight.text (w : Weight) : List Byte :=
  (if w.whole then bytesOf "1" else bytesOf "0") ++
    match w.decimals with
    | none => []
    | some digits => bytesOf "." ++ digits.map fun d : Fin 10 => UInt8.ofNat (48 + d.val)

def AcceptItem.text (item : AcceptItem) : List Byte :=
  item.before.bytes ++ item.range.text ++
    (match item.weight with
      | none => []
      | some (before, after, weight) =>
          before.bytes ++ bytesOf ";" ++ after.bytes ++ bytesOf "q=" ++ weight.text) ++
    item.after.bytes

def acceptText : List AcceptItem → List Byte
  | [] => []
  | [item] => item.text
  | item :: items => item.text ++ COMMA :: acceptText items

/-! ## Quality -/

def decimalsValue : List (Fin 10) → ℚ
  | [] => 0
  | d :: digits => (d.val + decimalsValue digits) / 10

def Weight.value (w : Weight) : ℚ :=
  (if w.whole then 1 else 0) + (w.decimals.map decimalsValue).getD 0

def AcceptItem.quality (item : AcceptItem) : ℚ :=
  match item.weight with
  | none => 1
  | some (_, _, weight) => weight.value

def MediaRange.specificity : MediaRange → ℕ
  | .any => 0
  | .every _ => 1
  | .one _ => 2

def MediaRange.matches : MediaRange → MediaType → Bool
  | .any, _ => true
  | .every type, t => type.bytes = t.type.bytes
  | .one mediaType, t => mediaType.text = t.text

/-- The weight of a range that matches the type and is as specific as any that does. -/
def HasQuality (header : List AcceptItem) (t : MediaType) (quality : ℚ) : Prop :=
  (∃ item ∈ header, item.range.matches t = true ∧ quality = item.quality ∧
      ∀ other ∈ header, other.range.matches t = true →
        other.range.specificity ≤ item.range.specificity) ∨
    (∀ item ∈ header, item.range.matches t = false) ∧ quality = 0

/-- A type of maximal quality is served if that is positive, and none if all are zero. -/
def Honoured (quality : MediaType → ℚ) (produces : List MediaType)
    (result : Option (List Byte)) : Prop :=
  ((∃ u ∈ produces, 0 < quality u) →
      ∃ t ∈ produces, result = some t.text ∧ ∀ u ∈ produces, quality u ≤ quality t) ∧
    ((∀ u ∈ produces, quality u = 0) → result = none)

/-- The first type that the first range with a match matches. -/
def firstMatch (header : List AcceptItem) (produces : List MediaType) : Option MediaType :=
  header.findSome? fun item => produces.find? item.range.matches

/-! ## Weights lie between zero and one -/

theorem decimalsValue_bounds (digits : List (Fin 10)) :
    0 ≤ decimalsValue digits ∧ decimalsValue digits < 1 := by
  induction digits with
  | nil => simp [decimalsValue]
  | cons d digits ih =>
    have hd : (d.val : ℚ) ≤ 9 := by exact_mod_cast Nat.le_of_lt_succ d.isLt
    have hpos : (0 : ℚ) ≤ d.val := Nat.cast_nonneg _
    rw [decimalsValue]
    constructor
    · exact div_nonneg (by linarith [ih.1]) (by norm_num)
    · rw [div_lt_one (by norm_num)]
      linarith [ih.2]

theorem decimalsValue_zeros {digits : List (Fin 10)} (h : ∀ d ∈ digits, d = 0) :
    decimalsValue digits = 0 := by
  induction digits with
  | nil => rfl
  | cons d digits ih =>
    rw [List.forall_mem_cons] at h
    rw [decimalsValue, ih h.2, h.1]
    norm_num

theorem Weight.value_bounds (w : Weight) : 0 ≤ w.value ∧ w.value ≤ 1 := by
  have hbounded := w.bounded
  unfold Weight.value
  cases hdecimals : w.decimals with
  | none => cases w.whole <;> norm_num
  | some digits =>
    have hdigits := decimalsValue_bounds digits
    rw [Option.map_some, Option.getD_some]
    cases hwhole : w.whole with
    | false => exact ⟨by simpa using hdigits.1, by simpa using hdigits.2.le⟩
    | true =>
      rw [decimalsValue_zeros (hbounded hwhole digits hdecimals)]
      norm_num

theorem AcceptItem.quality_nonneg (item : AcceptItem) : 0 ≤ item.quality := by
  unfold AcceptItem.quality
  cases item.weight with
  | none => norm_num
  | some weight => exact weight.2.2.value_bounds.1

theorem HasQuality.nonneg {header : List AcceptItem} {t : MediaType} {quality : ℚ}
    (h : HasQuality header t quality) : 0 ≤ quality := by
  rcases h with ⟨item, -, -, rfl, -⟩ | ⟨-, rfl⟩
  · exact item.quality_nonneg
  · exact le_rfl

/-! ## The ranges as the handlers read them -/

section Reading

theorem token_facts : ∀ c : Byte, isTokenChar c = true →
    c ≠ COMMA ∧ c ≠ SEMICOLON ∧ c ≠ 47 ∧ isJsonWhitespace c = false := by
  apply byte_forall
  decide +kernel

theorem isJsonWhitespace_of_isOws : ∀ c : Byte, isOws c = true →
    isJsonWhitespace c = true ∧ c ≠ COMMA ∧ c ≠ SEMICOLON := by
  intro c hc
  simp only [isOws, Bool.or_eq_true, decide_eq_true_eq] at hc
  rcases hc with rfl | rfl <;> decide

/-- What may stand in a range: no separator and no blank. -/
def Plain (text : List Byte) : Prop :=
  ∀ c ∈ text, c ≠ COMMA ∧ c ≠ SEMICOLON ∧ isJsonWhitespace c = false

theorem Plain.append {first rest : List Byte} (hfirst : Plain first) (hrest : Plain rest) :
    Plain (first ++ rest) := by
  intro c hc
  rcases List.mem_append.mp hc with hc | hc
  · exact hfirst c hc
  · exact hrest c hc

theorem MediaWord.plain (w : MediaWord) : Plain w.bytes := by
  intro c hc
  have hfacts := token_facts c (w.token c hc)
  exact ⟨hfacts.1, hfacts.2.1, hfacts.2.2.2⟩

theorem plain_marks :
    Plain (bytesOf "/") ∧ Plain (bytesOf "/*") ∧ Plain (bytesOf "*/*") := by
  simp [Plain, bytesOf]
  decide

theorem MediaType.plain (t : MediaType) : Plain t.text :=
  (t.type.plain.append plain_marks.1).append t.subtype.plain

theorem MediaRange.plain (range : MediaRange) : Plain range.text := by
  cases range with
  | any => exact plain_marks.2.2
  | every type => exact type.plain.append plain_marks.2.1
  | one mediaType => exact mediaType.plain

theorem MediaType.text_ne_nil (t : MediaType) : t.text ≠ [] := by
  simp [MediaType.text, t.type.nonempty]

theorem MediaRange.text_ne_nil (range : MediaRange) : range.text ≠ [] := by
  cases range with
  | any => decide
  | every type => simp [MediaRange.text, type.nonempty]
  | one mediaType => exact mediaType.text_ne_nil

theorem Plain.trimView {text : List Byte} (h : Plain text) : trimView text = text := by
  have hfree : ∀ c ∈ text, ¬isJsonWhitespace c = true := fun c hc =>
    Bool.eq_false_iff.mp (h c hc).2.2
  rw [trimView_eq, trim, List.dropWhile_eq_self_iff.mpr, List.rdropWhile_eq_self_iff.mpr]
  · exact fun hne => hfree _ (List.getLast_mem hne)
  · exact fun hlength => hfree _ (List.getElem_mem hlength)

/-- Blanks around a text are trimmed away. -/
theorem Plain.trimView_blank {text front back : List Byte} (h : Plain text)
    (hfront : ∀ c ∈ front, isOws c = true) (hback : ∀ c ∈ back, isOws c = true) :
    Serde.trimView (front ++ text ++ back) = text := by
  rw [trimView_eq, trim_append_right fun c hc => (isJsonWhitespace_of_isOws c (hback c hc)).1,
    trim_append_left fun c hc => (isJsonWhitespace_of_isOws c (hfront c hc)).1, ← trimView_eq,
    h.trimView]

theorem mediaTypeToken_item (item : AcceptItem) : mediaTypeToken item.text = item.range.text := by
  have hkeep (gap : Gap) : ∀ c ∈ item.before.bytes ++ item.range.text ++ gap.bytes,
      decide (c ≠ SEMICOLON) = true := by
    intro c hc
    rw [decide_eq_true_iff]
    rw [List.mem_append, List.mem_append] at hc
    rcases hc with (hc | hc) | hc
    · exact (isJsonWhitespace_of_isOws c (item.before.blank c hc)).2.2
    · exact (item.range.plain c hc).2.1
    · exact (isJsonWhitespace_of_isOws c (gap.blank c hc)).2.2
  have htrim (gap : Gap) :=
    item.range.plain.trimView_blank item.before.blank gap.blank
  rw [mediaTypeToken_eq, AcceptItem.text]
  cases item.weight with
  | none =>
    rw [List.append_nil, List.takeWhile_eq_self_iff.mpr (hkeep item.after), htrim]
  | some weight =>
    obtain ⟨before, after, weight⟩ := weight
    have hcut : item.before.bytes ++ item.range.text ++
        (before.bytes ++ bytesOf ";" ++ after.bytes ++ bytesOf "q=" ++ weight.text) ++
          item.after.bytes =
        item.before.bytes ++ item.range.text ++ before.bytes ++ SEMICOLON ::
          (after.bytes ++ bytesOf "q=" ++ weight.text ++ item.after.bytes) := by
      simp [SEMICOLON, bytesOf]
    dsimp only
    rw [hcut, List.takeWhile_append_of_pos (hkeep before),
      List.takeWhile_cons_of_neg (by simp), List.append_nil, htrim]

/-- A text is cut at its first slash in one way. -/
theorem slash_split {first first' rest rest' : List Byte} (hfirst : (47 : Byte) ∉ first)
    (hfirst' : (47 : Byte) ∉ first') (h : first ++ 47 :: rest = first' ++ 47 :: rest') :
    first = first' ∧ rest = rest' := by
  have hcut {text : List Byte} (more : List Byte) (hfree : (47 : Byte) ∉ text) :
      (text ++ 47 :: more).takeWhile (· ≠ 47) = text := by
    rw [List.takeWhile_append_of_pos, List.takeWhile_cons_of_neg (by simp), List.append_nil]
    intro c hc
    rw [decide_eq_true_iff]
    rintro rfl
    exact hfree hc
  have hsame : first = first' := by
    rw [← hcut rest hfirst, h, hcut rest' hfirst']
  subst hsame
  exact ⟨rfl, (List.cons.inj (List.append_cancel_left h)).2⟩

theorem MediaWord.no_slash (w : MediaWord) : (47 : Byte) ∉ w.bytes := fun hmem =>
  (token_facts 47 (w.token 47 hmem)).2.2.1 rfl

theorem MediaType.text_eq (t : MediaType) : t.text = t.type.bytes ++ 47 :: t.subtype.bytes := by
  simp [MediaType.text, bytesOf]

theorem MediaWord.ext {w w' : MediaWord} (h : w.bytes = w'.bytes) : w = w' := by
  cases w
  cases w'
  subst h
  rfl

theorem MediaType.text_inj {t t' : MediaType} (h : t.text = t'.text) : t = t' := by
  rw [t.text_eq, t'.text_eq] at h
  obtain ⟨htype, hsubtype⟩ := slash_split t.type.no_slash t'.type.no_slash h
  exact congrArg₂ MediaType.mk (MediaWord.ext htype) (MediaWord.ext hsubtype)

theorem MediaType.not_any (t : MediaType) : t.text ≠ bytesOf "*/*" := by
  intro h
  rw [t.text_eq] at h
  exact t.type.named (slash_split t.type.no_slash (show 47 ∉ bytesOf "*" by decide) h).1

theorem MediaType.not_wildcard (t : MediaType) (stem : List Byte) :
    t.text ≠ stem ++ bytesOf "/*" := by
  intro h
  have hreverse : t.subtype.bytes.reverse ++ 47 :: t.type.bytes.reverse =
      bytesOf "*" ++ 47 :: stem.reverse := by
    have hmirror := congrArg List.reverse h
    rw [t.text_eq, List.reverse_append, List.reverse_append, List.reverse_cons,
      List.append_assoc] at hmirror
    exact hmirror
  have hno : (47 : Byte) ∉ t.subtype.bytes.reverse := by
    rw [List.mem_reverse]
    exact t.subtype.no_slash
  have hsame := (slash_split hno (show 47 ∉ bytesOf "*" by decide) hreverse).1
  exact t.subtype.named (List.reverse_eq_iff.mp hsame)

theorem MediaWord.isPrefixOf_iff (w : MediaWord) (t : MediaType) :
    (w.bytes ++ bytesOf "/").isPrefixOf t.text = true ↔ w.bytes = t.type.bytes := by
  rw [List.isPrefixOf_iff_prefix, t.text_eq]
  constructor
  · rintro ⟨rest, hrest⟩
    have hcons : w.bytes ++ 47 :: rest = t.type.bytes ++ 47 :: t.subtype.bytes := by
      rw [← hrest]
      simp [bytesOf]
    exact (slash_split w.no_slash t.type.no_slash hcons).1
  · intro heq
    exact ⟨t.subtype.bytes, by simp [heq, bytesOf]⟩

/-- A part serves the first type that its range matches. -/
theorem servePart_item (front : MediaType) (others : List MediaType) (item : AcceptItem) :
    servePart front.text ((front :: others).map MediaType.text) item.text =
      ((front :: others).find? item.range.matches).map MediaType.text := by
  have hkept : trimView item.text ≠ [] := by
    intro hnil
    have htoken := mediaTypeToken_item item
    rw [mediaTypeToken, hnil] at htoken
    exact item.range.text_ne_nil htoken.symm
  unfold servePart
  rw [if_neg hkept]
  dsimp only
  rw [token_eq, mediaTypeToken_item]
  cases item.range with
  | any =>
    rw [MediaRange.text, if_pos rfl, List.find?_cons_of_pos rfl]
    rfl
  | every type =>
    have hany : type.bytes ++ bytesOf "/*" ≠ bytesOf "*/*" := by
      intro h
      have hstar : bytesOf "*/*" = bytesOf "*" ++ bytesOf "/*" := rfl
      rw [hstar] at h
      exact type.named (List.append_cancel_right h)
    have hpos := List.length_pos_iff.mpr type.nonempty
    have hlength : (type.bytes ++ bytesOf "/*").length = type.bytes.length + 2 := by
      rw [List.length_append, slashStar_length]
    have hdrop : (type.bytes ++ bytesOf "/*").drop
        ((type.bytes ++ bytesOf "/*").length - 2) = bytesOf "/*" :=
      (wildcard_iff _).mpr ⟨type.bytes, rfl⟩
    have hwild : (2 < (type.bytes ++ bytesOf "/*").length &&
        (type.bytes ++ bytesOf "/*").drop ((type.bytes ++ bytesOf "/*").length - 2) =
          bytesOf "/*") = true := by
      rw [hdrop, Bool.and_eq_true, decide_eq_true_eq, decide_eq_true_eq]
      exact ⟨by omega, rfl⟩
    rw [MediaRange.text, if_neg hany, if_pos hwild, take_slashStar, List.find?_map]
    congr 2
    funext t
    rw [Function.comp_apply, Bool.eq_iff_iff, type.isPrefixOf_iff, MediaRange.matches,
      decide_eq_true_iff]
  | one mediaType =>
    have hnot : ¬((2 < mediaType.text.length &&
        mediaType.text.drop (mediaType.text.length - 2) = bytesOf "/*") = true) := by
      rw [Bool.and_eq_true, decide_eq_true_eq, decide_eq_true_eq, wildcard_iff]
      rintro ⟨-, stem, hstem⟩
      exact mediaType.not_wildcard stem hstem
    rw [MediaRange.text, if_neg mediaType.not_any, if_neg hnot, List.find?_map]
    congr 2
    funext t
    rw [Function.comp_apply, MediaRange.matches, decide_eq_decide, eq_comm]

theorem Weight.no_comma (w : Weight) : COMMA ∉ w.text := by
  have hdigit : ∀ d : Fin 10, COMMA ≠ UInt8.ofNat (48 + d.val) := by decide
  have hmarks : COMMA ∉ bytesOf "1" ∧ COMMA ∉ bytesOf "0" ∧ COMMA ∉ bytesOf "." := by decide
  unfold Weight.text
  rw [List.mem_append, not_or]
  constructor
  · split
    · exact hmarks.1
    · exact hmarks.2.1
  · cases w.decimals with
    | none => exact List.not_mem_nil
    | some digits =>
      dsimp only
      rw [List.mem_append, List.mem_map]
      rintro (hmark | ⟨d, -, hd⟩)
      · exact hmarks.2.2 hmark
      · exact hdigit d hd.symm

theorem Gap.no_comma (gap : Gap) : COMMA ∉ gap.bytes := fun hmem =>
  (isJsonWhitespace_of_isOws COMMA (gap.blank COMMA hmem)).2.1 rfl

theorem AcceptItem.no_comma (item : AcceptItem) : COMMA ∉ item.text := by
  have hmarks : COMMA ∉ bytesOf ";" ∧ COMMA ∉ bytesOf "q=" := by decide
  have hrange : COMMA ∉ item.range.text := fun hmem => (item.range.plain COMMA hmem).1 rfl
  unfold AcceptItem.text
  simp only [List.mem_append, not_or]
  refine ⟨⟨⟨item.before.no_comma, hrange⟩, ?_⟩, item.after.no_comma⟩
  cases item.weight with
  | none => exact List.not_mem_nil
  | some weight =>
    obtain ⟨before, after, weight⟩ := weight
    simp only [List.mem_append, not_or]
    exact ⟨⟨⟨⟨before.no_comma, hmarks.1⟩, after.no_comma⟩, hmarks.2⟩, weight.no_comma⟩

theorem AcceptItem.text_ne_nil (item : AcceptItem) : item.text ≠ [] := by
  simp [AcceptItem.text, item.range.text_ne_nil]

theorem pieces_acceptText (header : List AcceptItem) :
    pieces COMMA (acceptText header) = header.map AcceptItem.text := by
  have hfree (item : AcceptItem) : ∀ c ∈ item.text, c ≠ COMMA := by
    rintro c hc rfl
    exact item.no_comma hc
  fun_induction acceptText header with
  | case1 => rfl
  | case2 item => exact pieces_singleton COMMA item.text_ne_nil (hfree item)
  | case3 item items _ ih => rw [pieces_append_cons COMMA (hfree item), ih, List.map_cons]

theorem acceptText_eq_nil_iff {header : List AcceptItem} : acceptText header = [] ↔ header = [] := by
  constructor
  · intro hnil
    have hpieces := pieces_acceptText header
    rw [hnil, pieces_nil] at hpieces
    exact List.map_eq_nil_iff.mp hpieces.symm
  · rintro rfl
    rfl

/-- The slow path, for every header. -/
theorem findSome?_acceptText (front : MediaType) (others : List MediaType)
    (header : List AcceptItem) :
    (pieces COMMA (acceptText header)).findSome?
        (servePart front.text ((front :: others).map MediaType.text)) =
      (firstMatch header (front :: others)).map MediaType.text := by
  rw [pieces_acceptText, List.findSome?_map, firstMatch, List.map_findSome?]
  congr 1
  funext item
  exact servePart_item front others item

def noGap : Gap :=
  { bytes := [], blank := fun _ hc => absurd hc List.not_mem_nil }

theorem matches_self (t : MediaType) : (MediaRange.one t).matches t = true :=
  decide_eq_true rfl

/-- The slow path, for a header that is a type. -/
theorem findSome?_mediaType {front t : MediaType} {others : List MediaType}
    (ht : t ∈ front :: others) :
    (pieces COMMA t.text).findSome?
        (servePart front.text ((front :: others).map MediaType.text)) = some t.text := by
  let item : AcceptItem := { before := noGap, range := .one t, weight := none, after := noGap }
  have htext : acceptText [item] = t.text := by
    simp [acceptText, AcceptItem.text, item, noGap, MediaRange.text]
  rw [← htext, findSome?_acceptText, htext]
  have hfound : (front :: others).find? (MediaRange.one t).matches = some t := by
    obtain ⟨u, hu⟩ := Option.isSome_iff_exists.mp (List.find?_isSome.mpr
      ⟨t, ht, matches_self t⟩)
    have hmatch : decide (t.text = u.text) = true :=
      List.find?_some (p := (MediaRange.one t).matches) hu
    rw [hu, MediaType.text_inj (of_decide_eq_true hmatch)]
  rw [firstMatch, List.findSome?_singleton, hfound]
  rfl

end Reading

/-! ## What is served -/

/-- Weights do not matter: the first type that the first range with a match matches. -/
theorem negotiateResponseType_eq {memory : List Byte} {req : Request} {header : List AcceptItem}
    (hne : header ≠ [])
    (haccept : (req.headers.getField .accept).map (·.read memory) = some (acceptText header))
    (front : MediaType) (others : List MediaType) :
    negotiateResponseType memory req ((front :: others).map MediaType.text) =
      (firstMatch header (front :: others)).map MediaType.text := by
  have hslow := findSome?_acceptText front others header
  unfold negotiateResponseType
  rw [List.map_cons]
  dsimp only
  rw [haccept]
  dsimp only
  split
  next hfast =>
    rw [Bool.or_eq_true, decide_eq_true_eq, decide_eq_true_eq, acceptText_eq_nil_iff] at hfast
    have hany := hfast.resolve_left hne
    rw [← hslow, hany]
    rfl
  split
  next hfast =>
    rw [Bool.and_eq_true, decide_eq_true_eq, decide_eq_true_eq] at hfast
    rw [← hslow, hfast.2, findSome?_mediaType List.mem_cons_self]
  split
  next hfast =>
    rw [Bool.and_eq_true, ← List.map_cons, decide_eq_true_eq] at hfast
    obtain ⟨t, ht, heq⟩ := List.mem_map.mp hfast.2
    rw [← hslow, ← heq, findSome?_mediaType ht]
  next => rw [negotiate_loop_eq, ← List.map_cons, hslow]

/-- Quality values are honoured exactly if the type that is matched first is of maximal
quality and not excluded. -/
theorem negotiation_honours_iff {memory : List Byte} {req : Request} {header : List AcceptItem}
    (haccept : (req.headers.getField .accept).map (·.read memory) = some (acceptText header))
    {produces : List MediaType} (hproduces : produces ≠ []) {quality : MediaType → ℚ}
    (hquality : ∀ t ∈ produces, HasQuality header t (quality t)) :
    Honoured quality produces
        (negotiateResponseType memory req (produces.map MediaType.text)) ↔
      header ≠ [] ∧ ∀ t, firstMatch header produces = some t →
        0 < quality t ∧ ∀ u ∈ produces, quality u ≤ quality t := by
  obtain ⟨front, others, rfl⟩ := List.exists_cons_of_ne_nil hproduces
  by_cases hne : header = []
  · refine iff_of_false (fun hhonoured => ?_) (fun h => h.1 hne)
    have hfront : negotiateResponseType memory req ((front :: others).map MediaType.text) =
        some front.text := by
      rw [List.map_cons, negotiateResponseType, haccept, hne]
      rfl
    have hzero : ∀ u ∈ front :: others, quality u = 0 := by
      intro u hu
      rcases hquality u hu with ⟨item, hitem, -⟩ | ⟨-, hzero⟩
      · rw [hne] at hitem
        exact absurd hitem List.not_mem_nil
      · exact hzero
    rw [hhonoured.2 hzero] at hfront
    exact Option.some_ne_none _ hfront.symm
  rw [negotiateResponseType_eq hne haccept, and_iff_right hne]
  cases hfirst : firstMatch header (front :: others) with
  | none =>
    have hzero : ∀ u ∈ front :: others, quality u = 0 := by
      intro u hu
      rcases hquality u hu with ⟨item, hitem, hmatch, -⟩ | ⟨-, hzero⟩
      · have hnone := List.findSome?_eq_none_iff.mp hfirst item hitem
        exact absurd hmatch (List.find?_eq_none.mp hnone u hu)
      · exact hzero
    refine iff_of_true ⟨?_, fun _ => rfl⟩ (fun t ht => absurd ht.symm (Option.some_ne_none t))
    rintro ⟨u, hu, hpos⟩
    exact absurd (hzero u hu) (ne_of_gt hpos)
  | some t =>
    have ht : t ∈ front :: others := by
      obtain ⟨item, -, hitem⟩ := List.exists_of_findSome?_eq_some hfirst
      exact List.mem_of_find?_eq_some hitem
    simp only [Option.some.injEq, forall_eq']
    constructor
    · rintro ⟨hserved, hnone⟩
      have hpositive : ∃ u ∈ front :: others, 0 < quality u := by
        by_contra hnot
        push Not at hnot
        have hall := hnone fun u hu => le_antisymm (hnot u hu) (hquality u hu).nonneg
        exact Option.some_ne_none _ hall
      obtain ⟨t', ht', heq, hmax⟩ := hserved hpositive
      obtain ⟨u, hu, hpos⟩ := hpositive
      have hsame : t = t' := MediaType.text_inj (Option.some.inj heq)
      rw [hsame]
      exact ⟨hpos.trans_le (hmax u hu), hmax⟩
    · rintro ⟨hpos, hmax⟩
      exact ⟨fun _ => ⟨t, ht, rfl, hmax⟩, fun hzero => absurd (hzero t ht) (ne_of_gt hpos)⟩

section Example

def wordOf (text : String) (h : bytesOf text ≠ [] ∧ (∀ c ∈ bytesOf text, isTokenChar c = true) ∧
    bytesOf text ≠ bytesOf "*") : MediaWord :=
  { bytes := bytesOf text, nonempty := h.1, token := h.2.1, named := h.2.2 }

theorem wordsOf_types :
    ∀ text ∈ ["text", "html", "application", "json"], bytesOf text ≠ [] ∧
      (∀ c ∈ bytesOf text, isTokenChar c = true) ∧ bytesOf text ≠ bytesOf "*" := by
  decide +kernel

def htmlType : MediaType :=
  { type := wordOf "text" (wordsOf_types _ (by simp))
    subtype := wordOf "html" (wordsOf_types _ (by simp)) }

def jsonType : MediaType :=
  { type := wordOf "application" (wordsOf_types _ (by simp))
    subtype := wordOf "json" (wordsOf_types _ (by simp)) }

def tenth : Weight :=
  { whole := false, decimals := some [1], bounded := fun h => absurd h Bool.false_ne_true }

/-- `text/html;q=0.1,application/json` -/
def lightHtml : List AcceptItem :=
  [{ before := noGap, range := .one htmlType, weight := some (noGap, noGap, tenth), after := noGap },
    { before := noGap, range := .one jsonType, weight := none, after := noGap }]

def lightQuality (t : MediaType) : ℚ :=
  if t.text = htmlType.text then 1 / 10 else 1

theorem lightHtml_text :
    ((jsonRequest "text/html;q=0.1,application/json").headers.getField .accept).map (·.read []) =
      some (acceptText lightHtml) := by
  decide +kernel

theorem types_differ : jsonType.text ≠ htmlType.text := by
  decide

theorem lightHtml_quality :
    ∀ t ∈ [htmlType, jsonType], HasQuality lightHtml t (lightQuality t) := by
  have hspecific (t : MediaType) : ∀ other ∈ lightHtml, other.range.matches t = true →
      other.range.specificity ≤ 2 := by
    intro other _ _
    cases other.range <;> simp [MediaRange.specificity]
  intro t ht
  rcases List.mem_pair.mp ht with rfl | rfl
  · refine .inl ⟨_, List.mem_cons_self, matches_self htmlType, ?_, hspecific _⟩
    norm_num [lightQuality, AcceptItem.quality, Weight.value, tenth, decimalsValue]
  · refine .inl ⟨_, List.mem_cons_of_mem _ List.mem_cons_self, matches_self jsonType, ?_, hspecific _⟩
    rw [lightQuality, if_neg types_differ]
    rfl

theorem negotiation_honours_iff_lightHtml :
    Honoured lightQuality [htmlType, jsonType]
        (negotiateResponseType [] (jsonRequest "text/html;q=0.1,application/json")
          ([htmlType, jsonType].map MediaType.text)) ↔
      lightHtml ≠ [] ∧ ∀ t, firstMatch lightHtml [htmlType, jsonType] = some t →
        0 < lightQuality t ∧ ∀ u ∈ [htmlType, jsonType], lightQuality u ≤ lightQuality t :=
  negotiation_honours_iff lightHtml_text (List.cons_ne_nil _ _) lightHtml_quality

/-- The lighter type is served, since its range stands in front. -/
theorem lightHtml_served :
    (∀ t ∈ [htmlType, jsonType], HasQuality lightHtml t (lightQuality t)) ∧
    ¬Honoured lightQuality [htmlType, jsonType]
      (negotiateResponseType [] (jsonRequest "text/html;q=0.1,application/json")
        ([htmlType, jsonType].map MediaType.text)) := by
  refine ⟨lightHtml_quality, ?_⟩
  have hjson : lightQuality jsonType = 1 := if_neg types_differ
  have hhtml : lightQuality htmlType = 1 / 10 := if_pos rfl
  have hfirst : firstMatch lightHtml [htmlType, jsonType] = some htmlType := rfl
  have hne : lightHtml ≠ [] := List.cons_ne_nil _ _
  rw [negotiateResponseType_eq hne lightHtml_text, hfirst]
  rintro ⟨hserved, -⟩
  obtain ⟨t, ht, heq, hmax⟩ := hserved ⟨jsonType, by simp, by rw [hjson]; norm_num⟩
  have hsame : htmlType = t := MediaType.text_inj (Option.some.inj heq)
  have hle := hmax jsonType (by simp)
  rw [← hsame, hjson, hhtml] at hle
  norm_num at hle

end Example

end Http
end Katana
