import Katana.Http.AsciiFolding
import Katana.Http.Field

/-!
# Looking up header names

The table of the rare names is sorted by folded name, so the lower bound of a name
is the entry with this name if there is one.  The popular names fit into their
buckets, and the bucket of a name does not depend on its case.  Names consist of
letters, digits and hyphens, which no token character resembles in a lane except
as the other case of a letter.
-/

namespace Katana
namespace Http

/-! ## The order of the names -/

/-- What `case_insensitive_less` compares: the folded bytes as signed characters. -/
def sortKey (name : List Byte) : List ℤ :=
  name.map fun c => (asciiLower c).toInt8.toInt

theorem caseInsensitiveLess_iff (a b : List Byte) :
    caseInsensitiveLess a b = true ↔ sortKey a < sortKey b := by
  induction a generalizing b with
  | nil => cases b <;> simp [caseInsensitiveLess, sortKey]
  | cons x a ih =>
      cases b with
      | nil => simp [caseInsensitiveLess, sortKey]
      | cons y b =>
          have hkeys : ∀ c l, sortKey (c :: l) = (asciiLower c).toInt8.toInt :: sortKey l :=
            fun _ _ => rfl
          rw [hkeys, hkeys, List.cons_lt_cons_iff, caseInsensitiveLess, ← ih]
          simp only [Int8.lt_iff_toInt_lt]
          rcases lt_trichotomy (asciiLower x).toInt8.toInt (asciiLower y).toInt8.toInt with
            hlt | heq | hgt
          · simp [hlt]
          · simp [heq]
          · simp [hgt, hgt.ne', not_lt.mpr hgt.le]

theorem sortKey_eq_iff {a b : List Byte} : sortKey a = sortKey b ↔ toLower a = toLower b := by
  have hfold : ∀ s, sortKey s = (toLower s).map fun c => c.toInt8.toInt := by
    intro s
    simp [sortKey, toLower]
  rw [hfold, hfold]
  constructor
  · intro h
    apply List.map_injective_iff.mpr _ h
    intro c d hcd
    have hsame := Int8.toInt_inj.mp hcd
    rw [← UInt8.toUInt8_toInt8 c, hsame, UInt8.toUInt8_toInt8]
  · intro h
    rw [h]

/-! ## The sorted table -/

theorem selectPass_le (front : FieldEntry) (entries : List FieldEntry) :
    ∀ entry ∈ front :: entries, sortKey (selectPass front entries).1.name ≤ sortKey entry.name := by
  induction entries generalizing front with
  | nil => simp [selectPass]
  | cons next rest ih =>
      intro entry hentry
      simp only [List.mem_cons] at hentry ih
      unfold selectPass
      by_cases hless : caseInsensitiveLess next.name front.name
      · have hkeys := (caseInsensitiveLess_iff _ _).mp hless
        simp only [hless, if_true]
        rcases hentry with rfl | rfl | hrest
        · exact (ih next next (.inl rfl)).trans hkeys.le
        · exact ih entry entry (.inl rfl)
        · exact ih next entry (.inr hrest)
      · have hkeys := not_lt.mp (mt (caseInsensitiveLess_iff _ _).mpr hless)
        simp only [hless, Bool.false_eq_true, if_false]
        rcases hentry with rfl | rfl | hrest
        · exact ih entry entry (.inl rfl)
        · exact (ih front front (.inl rfl)).trans hkeys
        · exact ih front entry (.inr hrest)

theorem length_selectPass (front : FieldEntry) (entries : List FieldEntry) :
    (selectPass front entries).2.length = entries.length := by
  induction entries generalizing front with
  | nil => rfl
  | cons next rest ih =>
      unfold selectPass
      split
      · simp [ih]
      · simp [ih]

theorem exchangeSort_sorted {passes : ℕ} {entries : List FieldEntry}
    (hpasses : entries.length ≤ passes) :
    (exchangeSort passes entries).Pairwise fun a b => sortKey a.name ≤ sortKey b.name := by
  induction passes generalizing entries with
  | zero =>
      rw [List.length_eq_zero_iff.mp (Nat.le_zero.mp hpasses)]
      exact .nil
  | succ passes ih =>
      cases entries with
      | nil => exact .nil
      | cons front rest =>
          have hlength := length_selectPass front rest
          rw [List.length_cons] at hpasses
          refine .cons (fun entry hentry => ?_) (ih (by omega))
          apply selectPass_le front rest
          rw [← selectPass_mem front rest]
          exact List.mem_cons_of_mem _ (exchangeSort_mem.mp hentry)

theorem rareHeaders_sorted :
    rareHeaders.Pairwise fun a b => sortKey a.name ≤ sortKey b.name := by
  have hlength := table_facts.2.2
  apply exchangeSort_sorted
  simp [hlength]

/-- In a sorted list the lower bound of a key that occurs has this key. -/
theorem find?_lowerBound {α κ : Type*} [LinearOrder κ] {key : α → κ} {l : List α}
    (hsorted : l.Pairwise fun a b => key a ≤ key b) {below : α → Bool} {k : κ}
    (hbelow : ∀ a, below a = true ↔ key a < k) (hmem : ∃ a ∈ l, key a = k) :
    ∃ a, l.find? (fun a => !below a) = some a ∧ key a = k := by
  induction l with
  | nil => simp at hmem
  | cons a rest ih =>
      obtain ⟨hfirst, hrest⟩ := List.pairwise_cons.mp hsorted
      obtain ⟨b, hb, hkey⟩ := hmem
      by_cases ha : below a = true
      · have hlt := (hbelow a).mp ha
        rw [List.find?_cons_of_neg (by simp [ha])]
        rcases List.mem_cons.mp hb with rfl | hb
        · exact absurd hkey hlt.ne
        · exact ih hrest ⟨b, hb, hkey⟩
      · have hge := not_lt.mp (mt (hbelow a).mpr ha)
        refine ⟨a, List.find?_cons_of_pos (by simpa using ha), le_antisymm ?_ hge⟩
        rcases List.mem_cons.mp hb with rfl | hb
        · exact hkey.le
        · exact (hfirst b hb).trans hkey.le

theorem lowerBound_found {name : List Byte} {entry : FieldEntry} (hentry : entry ∈ rareHeaders)
    (hname : toLower entry.name = toLower name) :
    ∃ found, lowerBound name = some found ∧ toLower found.name = toLower name := by
  obtain ⟨found, hfound, hkey⟩ := find?_lowerBound rareHeaders_sorted
    (fun a => caseInsensitiveLess_iff a.name name) ⟨entry, hentry, (sortKey_eq_iff).mpr hname⟩
  exact ⟨found, hfound, (sortKey_eq_iff).mp hkey⟩

/-! ## Names of the table -/

/-- An ASCII text is its own UTF-8 encoding, which is quicker to evaluate. -/
theorem bytesOf_eq_utf8 {text : String}
    (hascii : text.toByteArray.data.toList.all (· < 128) = true) :
    bytesOf text = text.toByteArray.data.toList := by
  have hencoding : text.toByteArray.data.toList = text.toList.flatMap String.utf8EncodeChar := by
    conv_lhs => rw [← String.ofList_toList (s := text)]
    rw [String.toByteArray_ofList, List.utf8Encode, List.toList_data_toByteArray]
  rw [hencoding, List.all_eq_true] at hascii
  rw [hencoding]
  unfold bytesOf
  generalize text.toList = chars at hascii ⊢
  induction chars with
  | nil => rfl
  | cons c rest ih =>
      simp only [List.flatMap_cons, List.mem_append, decide_eq_true_eq] at hascii ih ⊢
      have hchar : String.utf8EncodeChar c = [c.toNat.toUInt8] := by
        have hfirst : ∀ b ∈ String.utf8EncodeChar c, b < 128 := fun b hb => hascii b (.inl hb)
        have hbound : (128 : UInt8).toNat = 128 := rfl
        revert hfirst
        fun_cases String.utf8EncodeChar c
        · exact fun _ => rfl
        all_goals
          -- the first byte of a longer encoding is not ASCII
          intro hfirst
          have hbyte := hfirst _ List.mem_cons_self
          rw [UInt8.lt_iff_toNat_lt, UInt8.toNat_ofNat'] at hbyte
          omega
      rw [List.map_cons, ih fun b hb => hascii b (.inr hb), hchar]
      rfl

theorem map_bytesOf {names : List String}
    (hascii : (names.all fun text => text.toByteArray.data.toList.all (· < 128)) = true) :
    names.map bytesOf = names.map fun text => text.toByteArray.data.toList := by
  apply List.map_congr_left
  intro text hmem
  exact bytesOf_eq_utf8 (List.all_eq_true.mp hascii text hmem)

def isNameChar (c : Byte) : Bool :=
  (97 ≤ (c ||| 0x20) && (c ||| 0x20) ≤ 122) || (48 ≤ c && c ≤ 57) || c = 45

/-- A name character is a token character, and so is none that differs in the case bit
alone, unless they are one letter. -/
theorem isNameChar_facts (c : Byte) : isNameChar c = true →
    isTokenChar c = true ∧
      (isTokenChar (c ^^^ 0x20) = true → asciiLower c = asciiLower (c ^^^ 0x20)) := by
  revert c
  apply byte_forall
  decide +kernel

theorem isTokenChar_of_isNameChar {c : Byte} (hc : isNameChar c = true) :
    isTokenChar c = true :=
  (isNameChar_facts c hc).1

/-- A token character that agrees with a name character up to the case bit is the same
letter. -/
theorem asciiLower_of_token {x y : Byte} (hx : isNameChar x = true) (hy : isTokenChar y = true)
    (hor : x ||| 0x20 = y ||| 0x20) : asciiLower x = asciiLower y := by
  rcases eq_or_xor_of_or_eq hor with rfl | rfl
  · rfl
  · exact (isNameChar_facts x hx).2 hy

theorem popularHeaders_fields : popularHeaders.map (·.value) = popularFields := by
  simp [popularHeaders, popularFields]

/-- The name of `unknown`, and a name in another case. -/
theorem toLower_fieldToString_two :
    (toLower (fieldToString .unknown) = bytesOf "unknown" ∧
      ∀ c ∈ fieldToString .unknown, isTokenChar c = true) ∧
    toLower (bytesOf "VIA") = toLower (fieldToString .via) ∧
      ∀ c ∈ bytesOf "VIA", isTokenChar c = true := by
  constructor
  · constructor
    · decide
    · have hname : fieldToString .unknown = bytesOf "unknown" := by decide
      rw [hname]
      simp [bytesOf, isTokenChar]
  · constructor
    · decide
    · simp [bytesOf, isTokenChar]

/-- Behind the name of `unknown` the table is sorted, and its names are plain. -/
theorem fieldNameTable_tail :
    fieldNameTable.tail.IsChain (fun a b => caseInsensitiveLess a b = true) ∧
      (fieldNameTable.tail.all fun name =>
        name ≠ [] && toLower name ≠ bytesOf "unknown" && name.all isNameChar) = true := by
  unfold fieldNameTable
  rw [map_bytesOf (by decide +kernel)]
  decide +kernel

theorem ctorIdx_lt (f : Field) : f.ctorIdx < 357 := by
  cases f <;> decide

theorem fieldNameTable_get (f : Field) : fieldNameTable[f.ctorIdx]? = some (fieldToString f) := by
  have hlt : f.ctorIdx < fieldNameTable.length := by
    rw [fieldNameTable_length]
    exact ctorIdx_lt f
  rw [fieldToString, List.getD_eq_getElem?_getD, List.getElem?_eq_getElem hlt]
  rfl

theorem fieldNameTable_tail_get {f : Field} (hf : f ≠ .unknown) :
    ∃ i, f.ctorIdx = i + 1 ∧ fieldNameTable.tail[i]? = some (fieldToString f) := by
  cases hindex : f.ctorIdx with
  | zero =>
      have hfield := Field.ofNat_ctorIdx f
      rw [hindex] at hfield
      exact absurd hfield.symm hf
  | succ i =>
      refine ⟨i, rfl, ?_⟩
      rw [List.getElem?_tail, ← hindex]
      exact fieldNameTable_get f

/-- Two fields of the table have different folded names. -/
theorem toLower_fieldToString_injective {f g : Field} (hf : f ≠ .unknown) (hg : g ≠ .unknown)
    (hnames : toLower (fieldToString f) = toLower (fieldToString g)) : f = g := by
  obtain ⟨i, hi, hname⟩ := fieldNameTable_tail_get hf
  obtain ⟨j, hj, hname'⟩ := fieldNameTable_tail_get hg
  have hsorted : fieldNameTable.tail.Pairwise fun a b => sortKey a < sortKey b := by
    have hchain := (fieldNameTable_tail).1.imp fun {a b} => (caseInsensitiveLess_iff a b).mp
    have htrans : IsTrans (List Byte) fun a b => sortKey a < sortKey b :=
      ⟨fun _ _ _ hab hbc => lt_trans hab hbc⟩
    exact List.isChain_iff_pairwise.mp hchain
  have hkeys := (sortKey_eq_iff).mpr hnames
  obtain ⟨hlt, hget⟩ := List.getElem?_eq_some_iff.mp hname
  obtain ⟨hlt', hget'⟩ := List.getElem?_eq_some_iff.mp hname'
  have hindex : i = j := by
    rcases lt_trichotomy i j with hless | hsame | hless
    · have hless' := List.pairwise_iff_getElem.mp hsorted i j hlt hlt' hless
      rw [hget, hget', hkeys] at hless'
      exact absurd hless' (lt_irrefl _)
    · exact hsame
    · have hless' := List.pairwise_iff_getElem.mp hsorted j i hlt' hlt hless
      rw [hget, hget', hkeys] at hless'
      exact absurd hless' (lt_irrefl _)
  rw [← Field.ofNat_ctorIdx f, ← Field.ofNat_ctorIdx g, hi, hj, hindex]

theorem fieldToString_facts {f : Field} (hf : f ≠ .unknown) :
    fieldToString f ≠ [] ∧ toLower (fieldToString f) ≠ toLower (fieldToString .unknown) ∧
      ∀ c ∈ fieldToString f, isNameChar c = true := by
  obtain ⟨i, -, hname⟩ := fieldNameTable_tail_get hf
  have hplain := List.all_eq_true.mp (fieldNameTable_tail).2 _ (List.mem_of_getElem? hname)
  simp only [Bool.and_eq_true, decide_eq_true_eq, List.all_eq_true] at hplain
  rw [(toLower_fieldToString_two).1.1]
  exact ⟨hplain.1.1, hplain.1.2, hplain.2⟩

/-- On tokens the comparison with a name of the table is exact. -/
theorem toLower_of_ciEqual {f : Field} (hf : f ≠ .unknown) {s : List Byte}
    (hs : ∀ c ∈ s, isTokenChar c = true) (hequal : ciEqual (fieldToString f) s = true) :
    toLower (fieldToString f) = toLower s := by
  apply (toLower_eq_iff).mpr
  refine ⟨ciEqual_length hequal, fun i x y hx hy => ?_⟩
  rw [positionEqual, if_neg Bool.false_ne_true, ciCharEqual_iff]
  exact asciiLower_of_token ((fieldToString_facts hf).2.2 x (List.mem_of_getElem? hx))
    (hs y (List.mem_of_getElem? hy)) (ciEqual_or_eq hequal hx hy)

/-- No two names of the table are confused. -/
theorem field_of_ciEqual {f g : Field} (hf : f ≠ .unknown)
    (hequal : ciEqual (fieldToString f) (fieldToString g) = true) : g = f := by
  have hnames : toLower (fieldToString g) = toLower (fieldToString f) := by
    by_cases hg : g = .unknown
    · have htoken : ∀ c ∈ fieldToString g, isTokenChar c = true := by
        rw [hg]
        exact (toLower_fieldToString_two).1.2
      exact (toLower_of_ciEqual hf htoken hequal).symm
    · exact (toLower_of_ciEqual hf
        (fun c hc => isTokenChar_of_isNameChar ((fieldToString_facts hg).2.2 c hc)) hequal).symm
  have hg : g ≠ .unknown := by
    rintro rfl
    exact (fieldToString_facts hf).2.1 hnames.symm
  exact toLower_fieldToString_injective hg hf hnames

/-! ## Completeness -/

theorem rareEntries_mem {f : Field} (hrare : f ∉ popularFields) :
    ⟨fieldToString f, f⟩ ∈ rareEntries := by
  unfold rareEntries
  apply List.mem_filterMap.mpr
  refine ⟨(fieldToString f, f.ctorIdx), ?_, ?_⟩
  · rw [List.mem_zipIdx_iff_getElem?]
    exact fieldNameTable_get f
  · simp only [Field.ofNat_ctorIdx, hrare, if_false]

theorem rareHeaders_mem {f : Field} (hrare : f ∉ popularFields) :
    ⟨fieldToString f, f⟩ ∈ rareHeaders := by
  rw [rareHeaders, exchangeSort_mem, List.mem_append]
  exact .inl (rareEntries_mem hrare)

theorem findField_bucket {bucket : List FieldEntry} {bound : Option FieldEntry} {name : List Byte}
    {entry : FieldEntry} (hfound : bucket.find? (fun entry =>
      entry.name.length = name.length && ciEqual entry.name name) = some entry) :
    findField bucket bound name = entry.value := by
  unfold findField
  rw [hfound]

theorem findField_bound {bucket : List FieldEntry} {name : List Byte} {entry : FieldEntry}
    (hnone : bucket.find? (fun entry =>
      entry.name.length = name.length && ciEqual entry.name name) = none)
    (hequal : ciEqual entry.name name = true) :
    findField bucket (some entry) name = entry.value := by
  unfold findField
  rw [hnone]
  exact if_pos hequal

/-- Every spelling of a name of the table is found. -/
theorem stringToField_of_toLower {s : List Byte} {f : Field} (hf : f ≠ .unknown)
    (hs : toLower s = toLower (fieldToString f)) : stringToField s = f := by
  have hequal : ciEqual (fieldToString f) s = true := ciEqualOn_of_toLower _ hs.symm
  have hempty : s ≠ [] := by
    rintro rfl
    exact (fieldToString_facts hf).1 (List.length_eq_zero_iff.mp (ciEqual_length hequal))
  have hvalue : ∀ entry : FieldEntry, entry.name = fieldToString entry.value →
      ciEqual entry.name s = true → entry.value = f := by
    intro entry hname hfound
    rw [hname] at hfound
    exact field_of_ciEqual hf (ciEqual_trans hequal (ciEqual_symm hfound))
  unfold stringToField
  rw [if_neg hempty]
  cases hbucket : (popularBucket (popularHash s)).find? fun entry =>
      entry.name.length = s.length && ciEqual entry.name s with
  | some entry =>
      have hfound := List.find?_some hbucket
      rw [Bool.and_eq_true] at hfound
      have hmem := popularBucket_mem (List.mem_of_find?_eq_some hbucket)
      rw [findField_bucket hbucket]
      exact hvalue entry ((popularHeaders_found entry hmem).1) hfound.2
  | none =>
      have hrare : f ∉ popularFields := by
        rw [← popularHeaders_fields]
        intro hmem
        obtain ⟨entry, hentry, rfl⟩ := List.mem_map.mp hmem
        -- the bucket of the name is the bucket of every spelling of it
        obtain ⟨hname, -, -, hfirst⟩ := popularHeaders_found entry hentry
        have hin := List.mem_of_find?_eq_some hfirst
        rw [hname, popularHash_congr hequal] at hin
        have hnone := List.find?_eq_none.mp hbucket entry hin
        rw [hname] at hnone
        simp [hequal, ciEqual_length hequal] at hnone
      obtain ⟨found, hfound, hname⟩ := lowerBound_found (rareHeaders_mem hrare) hs.symm
      have hsame : ciEqual found.name s = true := ciEqualOn_of_toLower _ hname
      have hmem := List.mem_of_find?_eq_some hfound
      rw [hfound, findField_bound hbucket hsame]
      rw [rareHeaders, exchangeSort_mem, List.mem_append] at hmem
      rcases hmem with hentry | hblank
      · exact hvalue found (rareEntries_name hentry) hsame
      · rw [List.eq_of_mem_replicate hblank] at hsame
        exact absurd (List.length_eq_zero_iff.mp (ciEqual_length hsame).symm) hempty

/-- A token is looked up as the field whose folded name it has, and as `unknown` if
there is none. -/
theorem stringToField_token {s : List Byte} (hs : ∀ c ∈ s, isTokenChar c = true) :
    (∀ f, f ≠ .unknown → (stringToField s = f ↔ toLower s = toLower (fieldToString f))) ∧
      ((∀ f, f ≠ .unknown → toLower s ≠ toLower (fieldToString f)) →
        stringToField s = .unknown) := by
  have hiff : ∀ f, f ≠ .unknown →
      (stringToField s = f ↔ toLower s = toLower (fieldToString f)) := by
    intro f hf
    constructor
    · intro hfield
      exact (toLower_of_ciEqual hf hs (stringToField_sound hfield hf)).symm
    · exact stringToField_of_toLower hf
  refine ⟨hiff, fun hnone => ?_⟩
  by_contra hknown
  exact hnone _ hknown ((hiff _ hknown).mp rfl)

/-- A rare name in another case. -/
theorem stringToField_via : stringToField (bytesOf "VIA") = .via :=
  ((stringToField_token (toLower_fieldToString_two).2.2).1 .via (by decide)).mpr
    (toLower_fieldToString_two).2.1

end Http
end Katana
