import Katana.Json.Readers
import Katana.Json.StringFields

/-!
# The order of the members of an object

What a member does to an object depends on its name and on its value alone: it is
refused, or its value is stored at the offset of the first descriptor of its name, or
it is skipped.  So the members may stand in any order if no two of them are stored at
the same offset, and those that match no descriptor may come and go.
-/

namespace Katana
namespace Json

open Library Serde
open Library.JsonText (IsValue StringText Space Member objectText commaSeparated)
open Http (Byte bytesOf)

/-! ## Readers and white space -/

section Blank

variable (space : Space) (cur : JsonCursor)

theorem string_blank : JsonCursor.string (space.text ++ cur) = JsonCursor.string cur := by
  unfold JsonCursor.string
  rw [skipWs_space]

theorem skipValue_blank : JsonCursor.skipValue (space.text ++ cur) = JsonCursor.skipValue cur := by
  unfold JsonCursor.skipValue
  rw [skipWs_space]

theorem parseSize_blank : parseSize (space.text ++ cur) = parseSize cur := by
  unfold parseSize
  rw [skipWs_space]

theorem parseDouble_blank : parseDouble (space.text ++ cur) = parseDouble cur := by
  unfold parseDouble
  rw [skipWs_space]

theorem parseBool_blank : parseBool (space.text ++ cur) = parseBool cur := by
  unfold parseBool
  rw [skipWs_space]

theorem parseArray_blank {α : Type} (parseValue : List Byte → Option α)
    (store : List α → FieldValue) (desc : FieldDescriptor) (obj : Record) :
    parseArray parseValue store desc (space.text ++ cur) obj =
      parseArray parseValue store desc cur obj := by
  unfold parseArray JsonCursor.tryArrayStart
  rw [consume_space]

theorem parse_blank (desc : FieldDescriptor) (obj : Record) :
    desc.parse (space.text ++ cur) obj = desc.parse cur obj := by
  unfold FieldDescriptor.parse
  cases desc.kind with
  | string => simp only [parseStringField, parseScalarField, string_blank]
  | integer => simp only [parseIntegerField, parseScalarField, parseSize_blank]
  | number => simp only [parseNumberField, parseScalarField, parseDouble_blank]
  | boolean => simp only [parseBoolField, parseScalarField, parseBool_blank]
  | arrayString => exact parseArray_blank space cur _ _ desc obj
  | arrayInteger => exact parseArray_blank space cur _ _ desc obj
  | arrayNumber => exact parseArray_blank space cur _ _ desc obj
  | arrayBoolean => exact parseArray_blank space cur _ _ desc obj

end Blank

/-! ## What a member does -/

/-- The name of a member and its value. -/
abbrev Entry := List Byte × List Byte

def entry (m : Member) : Entry :=
  (m.name, m.element.value)

/-- The descriptor that a name is looked up to. -/
def descriptorOf (fields : List FieldDescriptor) (name : List Byte) : Option FieldDescriptor :=
  (fields.findIdx? fun desc => name = desc.jsonName).bind fun i => fields[i]?

/-- What is stored for a value that is parsed up to its end. -/
def storedValue (desc : FieldDescriptor) (value : List Byte) : Option FieldValue :=
  let outcome := desc.parse value fun _ => .boolean false
  if outcome.error.isNone && outcome.cur.isEmpty then some (outcome.obj desc.offset) else none

theorem storedValue_parse {depth : ℕ} {value : List Byte} (h : IsValue depth value)
    (desc : FieldDescriptor) :
    match storedValue desc value with
    | some stored => Takes desc.parse desc.offset value stored
    | none => Refuses desc.parse value := by
  have hends : EndsValue [] := .inl rfl
  rcases parse_value h desc with ⟨stored, htakes⟩ | hrefuses
  · have halone := htakes [] (fun _ => .boolean false) hends
    rw [List.append_nil] at halone
    have hstored : storedValue desc value = some stored := by
      simp [storedValue, halone]
    rw [hstored]
    exact htakes
  · have halone := hrefuses [] (fun _ => .boolean false) hends
    rw [List.append_nil] at halone
    have hnone : storedValue desc value = none := by
      rcases halone with herror | ⟨c, tail, hcur, -⟩
      · simp [storedValue, herror]
      · simp [storedValue, hcur]
    rw [hnone]
    exact hrefuses

/-- The member is skipped or stored. -/
def taken (fields : List FieldDescriptor) (e : Entry) : Bool :=
  match descriptorOf fields e.1 with
  | none => true
  | some desc => (storedValue desc e.2).isSome

def store (fields : List FieldDescriptor) (obj : Record) (e : Entry) : Record :=
  match descriptorOf fields e.1 with
  | none => obj
  | some desc =>
      match storedValue desc e.2 with
      | none => obj
      | some stored => Function.update obj desc.offset stored

/-- The descriptor of that index has been seen. -/
def sees (fields : List FieldDescriptor) (e : Entry) (i : ℕ) : Bool :=
  (fields.findIdx? fun desc => e.1 = desc.jsonName) = some i

section Pass

variable {fields : List FieldDescriptor} {m : Member} {depth : ℕ} {tail : List Byte}

theorem atMember_text (m : Member) (tail : List Byte) (obj : Record) (seen : ℕ → Bool) :
    AtMember ⟨m.text ++ tail, obj, seen⟩ m.name (m.element.text ++ tail) := by
  have htext : m.text ++ tail =
      m.before.text ++ (JsonText.quoted m.name ++ (m.between.text ++ COLON :: (m.element.text ++ tail))) := by
    simp [JsonText.Member.text, COLON, JsonText.COLON]
  have hstring : JsonCursor.string (JsonCursor.skipWs (m.text ++ tail)) =
      (some m.name, m.between.text ++ COLON :: (m.element.text ++ tail)) := by
    rw [htext, skipWs_space, skipWs_quoted, string_quoted m.string]
  constructor
  · exact congrArg Prod.fst hstring
  · rw [hstring]
    exact (consume_space COLON m.between _).trans (consume_byte rfl _)

/-- Where the cursor is lost the next pass ends the loop with an error. -/
theorem objectPass_lost {cur : JsonCursor} (h : Lost cur) (obj : Record) (seen : ℕ → Bool) :
    ∃ error s, objectPass fields ⟨(JsonCursor.tryComma cur).2, obj, seen⟩ =
      .done (some error, s) := by
  rcases h with ⟨c, rest, rfl, hc⟩
  have hfacts := isScalarByte_facts hc
  have hends := hfacts.2.1
  simp only [JsonCursor.endsScalar, Bool.or_eq_false_iff, decide_eq_false_iff_not] at hends
  have hcomma : JsonCursor.tryComma (c :: rest) = (false, c :: rest) :=
    consume_other hfacts.1 hends.1.1 rest
  have hclosed : JsonCursor.tryObjectEnd (c :: rest) = (false, c :: rest) :=
    consume_other hfacts.1 hends.1.2 rest
  have hstring : JsonCursor.string (c :: rest) = (none, c :: rest) :=
    string_other hfacts.1 hfacts.2.2.1
  refine ⟨{ field := [], code := .invalidType }, ⟨c :: rest, obj, seen⟩, ?_⟩
  unfold objectPass
  simp [hcomma, skipWs_cons hfacts.1, hclosed, hstring]

theorem element_append (m : Member) (tail : List Byte) : m.element.text ++ tail =
    m.element.before.text ++ (m.element.value ++ (m.element.after.text ++ tail)) := by
  simp [JsonText.Element.text]

theorem descriptor_cases (fields : List FieldDescriptor) (e : Entry) :
    (descriptorOf fields e.1 = none ∧
        fields.findIdx? (fun desc => e.1 = desc.jsonName) = none) ∨
      ∃ i desc, descriptorOf fields e.1 = some desc ∧ fields[i]? = some desc ∧
        fields.findIdx? (fun desc => e.1 = desc.jsonName) = some i := by
  unfold descriptorOf
  cases hfind : fields.findIdx? fun desc => e.1 = desc.jsonName with
  | none => exact .inl ⟨rfl, rfl⟩
  | some i =>
      have hlt := (List.findIdx?_eq_some_iff_getElem.mp hfind).1
      exact .inr ⟨i, fields[i], by simp [hlt], by simp [hlt], rfl⟩

theorem objectPass_close (space : Space) (rest : List Byte) (obj : Record) (seen : ℕ → Bool) :
    objectPass fields ⟨space.text ++ CLOSE_BRACE :: rest, obj, seen⟩ =
      .done (none, ⟨rest, obj, seen⟩) := by
  have hclosed : JsonCursor.tryObjectEnd (JsonCursor.skipWs (space.text ++ CLOSE_BRACE :: rest)) =
      (true, rest) := by
    rw [skipWs_space, skipWs_cons (show isJsonWhitespace CLOSE_BRACE = false from rfl)]
    exact consume_byte rfl rest
  unfold objectPass
  simp [hclosed]

/-- One pass goes over one member, or the loop ends with an error. -/
theorem objectPass_member (hvalue : IsValue depth m.element.value) (htail : Follows tail)
    (obj : Record) (seen : ℕ → Bool) :
    if taken fields (entry m) then
      objectPass fields ⟨m.text ++ tail, obj, seen⟩ = .again ⟨(JsonCursor.tryComma tail).2,
        store fields obj (entry m), fun i => seen i || sees fields (entry m) i⟩
    else ∃ error s, EndsWith (objectPass fields) ⟨m.text ++ tail, obj, seen⟩ (some error, s) := by
  have hpass : objectPass fields ⟨m.text ++ tail, obj, seen⟩ = _ :=
    objectPass_atMember (atMember_text m tail obj seen)
  have hcomma : (JsonCursor.tryComma (m.element.after.text ++ tail)).2 =
      (JsonCursor.tryComma tail).2 :=
    congrArg Prod.snd (consume_space COMMA m.element.after tail)
  rcases descriptor_cases fields (entry m) with ⟨hnone, hindex⟩ | ⟨i, desc, hsome, hdesc, hindex⟩
  · -- the name is unknown
    have htaken : taken fields (entry m) = true := by
      simp [taken, hnone]
    have hstore : store fields obj (entry m) = obj := by
      simp [store, hnone]
    have hsees : (fun i => seen i || sees fields (entry m) i) = seen := by
      funext i
      simp [sees, hindex]
    have hmember : parseMember fields m.name (m.element.text ++ tail)
        ⟨m.text ++ tail, obj, seen⟩ =
          (none, ⟨JsonCursor.skipValue (m.element.text ++ tail), obj, seen⟩) := by
      have hname : fields.findIdx? (fun desc => m.name = desc.jsonName) = none := hindex
      unfold parseMember
      rw [hname]
    have hskip : (JsonCursor.tryComma (JsonCursor.skipValue (m.element.text ++ tail))).2 =
        (JsonCursor.tryComma tail).2 := by
      rw [element_append, skipValue_blank, (skippedValue_element hvalue htail).2]
      split
      · exact hcomma
      · rfl
    rw [if_pos htaken, hpass, hmember, hstore, hsees]
    dsimp only
    rw [hskip]
  · have hends := htail.endsValue m.element.after
    have hparse := storedValue_parse hvalue desc
    have hmember : parseMember fields m.name (m.element.text ++ tail)
        ⟨m.text ++ tail, obj, seen⟩ =
          ((desc.parse (m.element.value ++ (m.element.after.text ++ tail)) obj).error,
            ⟨(desc.parse (m.element.value ++ (m.element.after.text ++ tail)) obj).cur,
              (desc.parse (m.element.value ++ (m.element.after.text ++ tail)) obj).obj,
              Function.update seen i true⟩) := by
      have hname : fields.findIdx? (fun desc => m.name = desc.jsonName) = some i := hindex
      unfold parseMember
      rw [hname]
      simp only [hdesc, element_append, parse_blank]
    rw [hmember] at hpass
    cases hstored : storedValue desc (entry m).2 with
    | some stored =>
        -- the value is stored
        have htaken : taken fields (entry m) = true := by
          simp [taken, hsome, hstored]
        have hstore : store fields obj (entry m) = Function.update obj desc.offset stored := by
          simp [store, hsome, hstored]
        have hsees : (fun j => seen j || sees fields (entry m) j) = Function.update seen i true := by
          funext j
          by_cases hj : j = i
          · simp [sees, hindex, hj]
          · simp [sees, hindex, hj, Ne.symm hj]
        rw [show storedValue desc m.element.value = _ from hstored] at hparse
        dsimp only at hparse
        rw [hparse _ _ hends] at hpass
        rw [if_pos htaken, hpass, hstore, hsees]
        dsimp only
        rw [hcomma]
    | none =>
        have htaken : ¬ taken fields (entry m) = true := by
          simp [taken, hsome, hstored]
        rw [show storedValue desc m.element.value = _ from hstored] at hparse
        dsimp only at hparse
        rw [if_neg htaken]
        cases herror : (desc.parse (m.element.value ++ (m.element.after.text ++ tail)) obj).error with
        | some error =>
            rw [herror] at hpass
            exact ⟨error, _, .of_done hpass⟩
        | none =>
            -- the next pass finds the rest of the number
            rw [herror] at hpass
            have hlost := (hparse (m.element.after.text ++ tail) obj hends).resolve_left
              (not_not_intro herror)
            rcases objectPass_lost hlost _ _ with ⟨error, s, hdone⟩
            exact ⟨error, s, .of_passes (.head hpass (.refl _)) (.of_done hdone)⟩

/-- The loop goes over the members and ends behind the closing brace, or with an
error. -/
theorem objectLoop_members {members : List Member}
    (hvalues : ∀ m ∈ members, IsValue depth m.element.value) (rest : List Byte) (obj : Record)
    (seen : ℕ → Bool) :
    let s : ObjectState :=
      ⟨commaSeparated (members.map Member.text) ++ CLOSE_BRACE :: rest, obj, seen⟩
    if (members.map entry).all (taken fields) then
      objectLoop fields s = (none, ⟨rest, (members.map entry).foldl (store fields) obj,
        fun i => seen i || (members.map entry).any fun e => sees fields e i⟩)
    else (objectLoop fields s).1 ≠ none := by
  have hends : ∃ result, EndsWith (objectPass fields)
      ⟨commaSeparated (members.map Member.text) ++ CLOSE_BRACE :: rest, obj, seen⟩ result ∧
      if (members.map entry).all (taken fields) then
        result = (none, ⟨rest, (members.map entry).foldl (store fields) obj,
          fun i => seen i || (members.map entry).any fun e => sees fields e i⟩)
      else result.1 ≠ none := by
    induction members generalizing obj seen with
    | nil =>
        refine ⟨(none, ⟨rest, obj, seen⟩), .of_done ?_, by simp⟩
        exact objectPass_close .none rest obj seen
    | cons m members ih =>
        have hm := hvalues m List.mem_cons_self
        have hmore : ∀ d ∈ members, IsValue depth d.element.value :=
          fun d hd => hvalues d (List.mem_cons_of_mem _ hd)
        rcases separated_cons rfl (show CLOSE_BRACE ≠ COMMA by decide) m.text
          (members.map Member.text) rest with ⟨tail, htext, htail, hcomma⟩
        have hpass : if taken fields (entry m) then
            objectPass fields ⟨m.text ++ tail, obj, seen⟩ = .again ⟨(JsonCursor.tryComma tail).2,
              store fields obj (entry m), fun i => seen i || sees fields (entry m) i⟩
          else _ := objectPass_member hm htail obj seen
        rw [List.map_cons, htext]
        by_cases htaken : taken fields (entry m) = true
        · rw [if_pos htaken, hcomma] at hpass
          rcases ih hmore (store fields obj (entry m))
            (fun i => seen i || sees fields (entry m) i) with ⟨result, hrun, hresult⟩
          refine ⟨result, .of_passes (.head hpass (.refl _)) hrun, ?_⟩
          simpa [htaken, Bool.or_assoc] using hresult
        · rw [if_neg htaken] at hpass
          rcases hpass with ⟨error, s, hrun⟩
          refine ⟨_, hrun, ?_⟩
          simp [htaken]
  rcases hends with ⟨result, hrun, hresult⟩
  intro s
  have hloop : objectLoop fields s = result := evalLoop_eq (decreases_objectPass fields) hrun
  rw [hloop]
  exact hresult

end Pass

/-! ## Texts of objects -/

/-- The text of an object whose members have names of their own; `blank` is the white
space between the braces if there are no members. -/
structure ObjectText where
  before : Space
  members : List Member
  blank : Space
  after : Space
  depth : ℕ
  values : ∀ m ∈ members, IsValue depth m.element.value
  distinct : (members.map Member.name).Nodup

def ObjectText.body (o : ObjectText) : List Byte :=
  if o.members.isEmpty then o.blank.text else commaSeparated (o.members.map Member.text)

def ObjectText.text (o : ObjectText) : List Byte :=
  o.before.text ++ (objectText o.body ++ o.after.text)

def ObjectText.entries (o : ObjectText) : List Entry :=
  o.members.map entry

/-- The members whose names match a descriptor. -/
def ObjectText.known (o : ObjectText) (fields : List FieldDescriptor) : List Entry :=
  o.entries.filter fun e => (descriptorOf fields e.1).isSome

/-- No two members are stored at the same offset. -/
def ObjectText.StoredApart (o : ObjectText) (fields : List FieldDescriptor) : Prop :=
  ∀ e ∈ o.known fields, ∀ e' ∈ o.known fields,
    (descriptorOf fields e.1).map (·.offset) = (descriptorOf fields e'.1).map (·.offset) →
      e.1 = e'.1

section Object

variable {fields : List FieldDescriptor}

theorem objectLoop_body (o : ObjectText) (rest : List Byte) (obj : Record) (seen : ℕ → Bool) :
    if o.entries.all (taken fields) then
      objectLoop fields ⟨o.body ++ CLOSE_BRACE :: rest, obj, seen⟩ =
        (none, ⟨rest, o.entries.foldl (store fields) obj,
          fun i => seen i || o.entries.any fun e => sees fields e i⟩)
    else (objectLoop fields ⟨o.body ++ CLOSE_BRACE :: rest, obj, seen⟩).1 ≠ none := by
  unfold ObjectText.entries ObjectText.body
  cases hmembers : o.members with
  | nil =>
      have hloop : objectLoop fields ⟨o.blank.text ++ CLOSE_BRACE :: rest, obj, seen⟩ =
          (none, ⟨rest, obj, seen⟩) :=
        evalLoop_eq (decreases_objectPass fields)
          (.of_done (objectPass_close o.blank rest obj seen))
      simp [hloop]
  | cons m members =>
      have hvalues := o.values
      rw [hmembers] at hvalues
      exact objectLoop_members hvalues rest obj seen

theorem tryObjectStart_text (o : ObjectText) : JsonCursor.tryObjectStart o.text =
    (true, o.body ++ CLOSE_BRACE :: o.after.text) := by
  have htext : o.text =
      o.before.text ++ (OPEN_BRACE :: (o.body ++ CLOSE_BRACE :: o.after.text)) := by
    simp [ObjectText.text, objectText, OPEN_BRACE, JsonText.OPEN_BRACE, CLOSE_BRACE,
      JsonText.CLOSE_BRACE]
  rw [htext]
  exact (consume_space OPEN_BRACE o.before _).trans (consume_byte rfl _)

/-! ## Members that match no descriptor -/

theorem all_known (o : ObjectText) :
    o.entries.all (taken fields) = (o.known fields).all (taken fields) := by
  rw [ObjectText.known, List.all_filter]
  congr 1
  funext e
  unfold taken
  cases descriptorOf fields e.1 <;> rfl

theorem foldl_known (o : ObjectText) (obj : Record) :
    o.entries.foldl (store fields) obj = (o.known fields).foldl (store fields) obj := by
  rw [ObjectText.known, List.foldl_filter]
  congr 1
  funext obj e
  unfold store
  cases descriptorOf fields e.1 <;> rfl

theorem any_known (o : ObjectText) (i : ℕ) :
    (o.entries.any fun e => sees fields e i) = (o.known fields).any fun e => sees fields e i := by
  rw [ObjectText.known, List.any_filter]
  congr 1
  funext e
  rcases descriptor_cases fields e with ⟨hnone, hindex⟩ | ⟨j, desc, hsome, -, -⟩
  · simp [sees, hindex, hnone]
  · simp [hsome]

/-- The object that is accepted depends on the members that match a descriptor. -/
theorem parseObject_known (o : ObjectText) (obj : Record) :
    (parseObject o.text fields obj).toOption =
      if (o.known fields).all (taken fields) = true ∧
          missingField fields (fun i => (o.known fields).any fun e => sees fields e i) = none then
        some ((o.known fields).foldl (store fields) obj)
      else none := by
  have hloop : if o.entries.all (taken fields) then
      objectLoop fields ⟨o.body ++ CLOSE_BRACE :: o.after.text, obj, fun _ => false⟩ = _
    else _ := objectLoop_body o o.after.text obj fun _ => false
  simp only [all_known, foldl_known, any_known, Bool.false_or] at hloop
  unfold parseObject parseObjectInto
  simp only [tryObjectStart_text]
  by_cases htaken : (o.known fields).all (taken fields) = true
  · rw [if_pos htaken] at hloop
    simp only [hloop, htaken, true_and]
    cases hmissing : missingField fields fun i => (o.known fields).any fun e => sees fields e i with
    | none => simp [Except.toOption]
    | some error => simp [Except.toOption]
  · rw [if_neg htaken] at hloop
    cases hresult : objectLoop fields ⟨o.body ++ CLOSE_BRACE :: o.after.text, obj, fun _ => false⟩ with
    | mk error s =>
        rw [hresult] at hloop
        cases error with
        | none => exact absurd rfl hloop
        | some error => simp [htaken, Except.toOption]

/-! ## The order of the members -/

theorem sees_perm {entries entries' : List Entry} (h : entries.Perm entries') (i : ℕ) :
    (entries.any fun e => sees fields e i) = entries'.any fun e => sees fields e i := by
  rw [Bool.eq_iff_iff, List.any_eq_true, List.any_eq_true]
  simp only [h.mem_iff]

theorem store_comm (obj : Record) {e e' : Entry}
    (h : (descriptorOf fields e.1).map (·.offset) ≠ (descriptorOf fields e'.1).map (·.offset)) :
    store fields (store fields obj e) e' = store fields (store fields obj e') e := by
  unfold store
  cases hdesc : descriptorOf fields e.1 with
  | none => rfl
  | some desc =>
      cases hdesc' : descriptorOf fields e'.1 with
      | none => rfl
      | some desc' =>
          have hne : desc.offset ≠ desc'.offset := by
            simpa [hdesc, hdesc'] using h
          dsimp only
          cases storedValue desc e.2 with
          | none => rfl
          | some stored =>
              cases storedValue desc' e'.2 with
              | none => rfl
              | some stored' => exact Function.update_comm hne stored stored' obj

theorem entries_distinct (o : ObjectText) {e e' : Entry} (he : e ∈ o.entries)
    (he' : e' ∈ o.entries) (h : e.1 = e'.1) : e = e' := by
  rcases List.mem_map.mp he with ⟨m, hm, rfl⟩
  rcases List.mem_map.mp he' with ⟨m', hm', rfl⟩
  exact congrArg entry (List.inj_on_of_nodup_map o.distinct hm hm' h)

/-- Whether an object is accepted does not change with the order of its members or with
members that match no descriptor, and neither does the object if no two members are
stored at the same offset. -/
theorem parseObject_order (fields : List FieldDescriptor) (obj : Record) (o o' : ObjectText)
    (h : (o.known fields).Perm (o'.known fields)) :
    (parseObject o.text fields obj).toOption.isSome =
        (parseObject o'.text fields obj).toOption.isSome ∧
      (o.StoredApart fields →
        (parseObject o.text fields obj).toOption = (parseObject o'.text fields obj).toOption) := by
  rw [parseObject_known, parseObject_known]
  simp only [sees_perm h, h.all_eq]
  split
  · refine ⟨rfl, fun hapart => congrArg some ?_⟩
    apply h.foldl_eq'
    intro e he e' he' obj
    by_cases hname : e.1 = e'.1
    · rw [entries_distinct o (List.mem_of_mem_filter he) (List.mem_of_mem_filter he') hname]
    · apply store_comm
      intro hoffset
      exact hname (hapart e he e' he' hoffset)
  · exact ⟨rfl, fun _ => rfl⟩

end Object

/-- A member without white space. -/
def plainMember (name value : List Byte) (h : StringText name) : Member where
  before := .none
  name := name
  between := .none
  element := ⟨.none, value, .none⟩
  string := h

theorem letter_text (c : Byte) (hc : JsonText.isPlain c = true) : StringText [c] :=
  .plain hc .nil

/-- `"a":"x"` -/
def memberA : Member :=
  plainMember [0x61] (JsonText.quoted [0x78]) (letter_text 0x61 rfl)

/-- `"b":"y"` -/
def memberB : Member :=
  plainMember [0x62] (JsonText.quoted [0x79]) (letter_text 0x62 rfl)

/-- `"z":[]` -/
def memberZ : Member :=
  plainMember [0x7a] (JsonText.arrayText []) (letter_text 0x7a rfl)

theorem values_abz : ∀ m ∈ [memberA, memberB, memberZ], IsValue 1 m.element.value := by
  intro m hm
  simp only [List.mem_cons, List.not_mem_nil, or_false] at hm
  rcases hm with rfl | rfl | rfl
  · exact .string (letter_text 0x78 rfl)
  · exact .string (letter_text 0x79 rfl)
  · exact .emptyArray .none

/-- An object of some of the three members. -/
def plainObject (members : List Member) (h : ∀ m ∈ members, m ∈ [memberA, memberB, memberZ])
    (hdistinct : (members.map Member.name).Nodup) : ObjectText where
  before := .none
  members := members
  blank := .none
  after := .none
  depth := 1
  values := fun m hm => values_abz m (h m hm)
  distinct := hdistinct

theorem mem_ab : ∀ m ∈ [memberA, memberB], m ∈ [memberA, memberB, memberZ] := by
  simp

theorem mem_bza : ∀ m ∈ [memberB, memberZ, memberA], m ∈ [memberA, memberB, memberZ] := by
  simp

theorem mem_ba : ∀ m ∈ [memberB, memberA], m ∈ [memberA, memberB, memberZ] := by
  simp

theorem nodup_ab : ([memberA, memberB].map Member.name).Nodup := by
  decide

theorem nodup_ba : ([memberB, memberA].map Member.name).Nodup := by
  decide

theorem nodup_bza : ([memberB, memberZ, memberA].map Member.name).Nodup := by
  decide

def objectAB : ObjectText := plainObject [memberA, memberB] mem_ab nodup_ab

def objectBA : ObjectText := plainObject [memberB, memberA] mem_ba nodup_ba

def objectBZA : ObjectText := plainObject [memberB, memberZ, memberA] mem_bza nodup_bza

/-- Two string fields. -/
def fieldsAB (offset offset' : ℤ) : List FieldDescriptor :=
  [{ jsonName := [0x61], kind := .string, required := true, offset := offset },
    { jsonName := [0x62], kind := .string, required := true, offset := offset' }]

example : objectBZA.text = bytesOf "\x7b\"b\":\"y\",\"z\":[],\"a\":\"x\"\x7d" := by decide

theorem parseObject_order_fields :
    (parseObject objectAB.text (fieldsAB 0 32) fun _ => .boolean false).toOption.isSome =
      (parseObject objectBZA.text (fieldsAB 0 32) fun _ => .boolean false).toOption.isSome ∧
    (parseObject objectAB.text (fieldsAB 0 32) fun _ => .boolean false).toOption =
      (parseObject objectBZA.text (fieldsAB 0 32) fun _ => .boolean false).toOption := by
  have hperm : (objectAB.known (fieldsAB 0 32)).Perm (objectBZA.known (fieldsAB 0 32)) := by
    decide
  have hapart : objectAB.StoredApart (fieldsAB 0 32) := by
    unfold ObjectText.StoredApart
    decide
  have hboth := parseObject_order (fieldsAB 0 32) (fun _ => .boolean false) objectAB objectBZA hperm
  exact ⟨hboth.1, hboth.2 hapart⟩

/-- Where both fields have the same offset the member that comes last is kept. -/
theorem last_member_kept :
    ¬ ∀ (fields : List FieldDescriptor) (obj : Record) (o o' : ObjectText),
        (fields.map (·.jsonName)).Nodup → (o.known fields).Perm (o'.known fields) →
          (parseObject o.text fields obj).toOption = (parseObject o'.text fields obj).toOption := by
  intro hall
  have hperm : (objectAB.known (fieldsAB 0 0)).Perm (objectBA.known (fieldsAB 0 0)) := by
    decide
  have heq := hall (fieldsAB 0 0) (fun _ => .boolean false) objectAB objectBA (by decide) hperm
  have hfirst : storedText (parseObject objectAB.text (fieldsAB 0 0) fun _ => .boolean false) =
      some [0x79] := by
    rfl
  have hlast : storedText (parseObject objectBA.text (fieldsAB 0 0) fun _ => .boolean false) =
      some [0x78] := by
    rfl
  have hoption (outcome : Except ValidationError Record) :
      storedText outcome = outcome.toOption.bind fun record => storedText (.ok record) := by
    cases outcome <;> rfl
  rw [hoption, heq, ← hoption, hlast] at hfirst
  cases Option.some.inj hfirst

end Json
end Katana
