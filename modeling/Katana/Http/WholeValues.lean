import Katana.Http.HeadersCounts
import Katana.Http.Response

/-!
# Values stored whole

The slots keep the lengths of names and values in sixteen bits, and a search
compares the kept length of a name with the full length of the name looked up.
A shorter name and value are stored as they are and written into a response as
they are.  A longer value loses its end, and a longer name is never found again.
-/

namespace Katana
namespace Http

open Library

theorem View.length_truncate16_lt (view : View) : view.truncate16.length < 2 ^ 16 := by
  have hmod : ∀ n : ℕ, n % 2 ^ 16 < 2 ^ 16 := fun n => Nat.mod_lt n (by norm_num)
  cases view with
  | null => norm_num [View.truncate16, View.length]
  | buffer offset length => exact hmod length
  | owned bytes =>
      have hlength := List.length_take_le (bytes.length % 2 ^ 16) bytes
      exact lt_of_le_of_lt hlength (hmod bytes.length)

/-- Only a short text is still there after its length has been stored. -/
theorem View.read_truncate16_owned_iff {memory bytes : List Byte} :
    (View.owned bytes).truncate16.read memory = bytes ↔ bytes.length < 2 ^ 16 := by
  constructor
  · intro hread
    have hlength := (View.owned bytes).length_truncate16_lt
    have hsame : (View.owned bytes).truncate16.length = bytes.length := congrArg List.length hread
    rwa [hsame] at hlength
  · intro hshort
    rw [View.truncate16_owned hshort]
    rfl

theorem Response.headerLine_within {resp : Response} {field : List Byte × List Byte}
    (hfield : field ∈ resp.headers.entries [])
    (hshown : resp.chunked = true → field.1 ≠ bytesOf "Content-Length") :
    headerLine field <:+: resp.serializeInto := by
  have hflat : ∀ fields : List (List Byte × List Byte), field ∈ fields →
      headerLine field <:+: fields.flatMap headerLine := by
    intro fields hmem
    obtain ⟨before, after, rfl⟩ := List.append_of_mem hmem
    rw [List.flatMap_append, List.flatMap_cons]
    exact ⟨_, _, List.append_assoc _ _ _⟩
  unfold serializeInto
  split
  next hchunked =>
    unfold serializeChunked
    obtain ⟨before, after, hlines⟩ :=
      hflat ((resp.headers.entries []).filter (·.1 ≠ bytesOf "Content-Length"))
        (List.mem_filter.mpr ⟨hfield, by simpa using hshown hchunked⟩)
    refine ⟨resp.statusLine ++ before, after ++ (CHUNKED_ENCODING_HEADER ++
      (chunkText DEFAULT_CHUNK_SIZE resp.body.length resp.body ++ CHUNKED_TERMINATOR)), ?_⟩
    rw [← hlines]
    simp only [List.append_assoc]
  · obtain ⟨before, after, hlines⟩ := hflat _ hfield
    refine ⟨resp.statusLine ++ before,
      after ++ (resp.contentLengthLine ++ (CRLF ++ resp.body)), ?_⟩
    rw [← hlines]
    simp only [List.append_assoc]

namespace HeadersMap

/-- Everything that is meant to hold after `set_view`. -/
structure StoresWhole (memory : List Byte) (m : HeadersMap) (name value : List Byte) : Prop where
  get : ((m.setView memory name value).get memory name).map (·.read memory) = some value
  replaces : ∀ name' value', (HeaderKey.ofName name).same (.ofName name') = true →
    let first := m.setView memory name value
    let second := first.setView memory name' value'
    second.size = first.size ∧
      (second.entries memory).length = (first.entries memory).length ∧
      second.get memory name = second.get memory name'
  others : ∀ other, (HeaderKey.ofName name).same (.ofName other) = false →
    (m.setView memory name value).get memory other = m.get memory other
  -- any response whose headers read as these do
  line : ∃ shown, ciEqual shown name = true ∧
    (shown, value) ∈ (m.setView memory name value).entries memory ∧
    ∀ resp : Response, resp.headers.entries [] = (m.setView memory name value).entries memory →
      (resp.chunked = true → shown ≠ bytesOf "Content-Length") →
      Response.headerLine (shown, value) <:+: resp.serializeInto

/-- No name in the slots is longer than a stored length can say. -/
def Narrow (m : HeadersMap) : Prop :=
  ∀ entry ∈ m.unknown.slots, entry.name.length < 2 ^ 16

section Narrow

variable {memory : List Byte} {m : HeadersMap}

theorem narrow_initial : Narrow {} := by
  intro entry hentry
  rw [SlotTable.slots, List.flatten_nil, List.append_nil] at hentry
  rw [List.eq_of_mem_replicate hentry]
  norm_num [View.length]

theorem Narrow.placeUnknown (h : Narrow m) (name value : View) :
    Narrow (m.placeUnknown name value) :=
  SlotTable.forall_place h name.length_truncate16_lt (by norm_num [View.length])

theorem Narrow.setUnknown (h : Narrow m) (name value : List Byte) :
    Narrow (m.setUnknown memory name value) := by
  unfold HeadersMap.setUnknown
  split
  next unknown hmodify =>
    have hkeep : ∀ entry ∈ m.unknown.slots,
        ({ entry with value := (View.owned value).truncate16 } : UnknownEntry).name.length <
          2 ^ 16 := h
    exact SlotTable.forall_modify h hkeep hmodify
  · exact h.placeUnknown _ _

theorem Narrow.of_unknown {m' : HeadersMap} (h : Narrow m) (hsame : m'.unknown = m.unknown) :
    Narrow m' := by
  unfold Narrow
  rw [hsame]
  exact h

theorem unknown_removeField (f : Field) : (m.removeField f).unknown = m.unknown := by
  unfold HeadersMap.removeField
  split <;> rfl

theorem Narrow.apply (h : Narrow m) (operation : HeadersOperation) :
    Narrow (operation.apply memory m) := by
  cases operation with
  | removeField f => exact h.of_unknown (unknown_removeField f)
  | containsField f => exact h
  | change call =>
      cases call with
      | setView name value =>
          show Narrow (m.setView memory name value)
          unfold setView
          split
          · exact h.setUnknown name value
          · exact h.of_unknown (unknown_setKnownBorrowed _ _ m)
      | setKnown f value => exact h.of_unknown (unknown_setKnownBorrowed _ _ m)
      | setKnownBorrowed f value => exact h.of_unknown (unknown_setKnownBorrowed _ _ m)
      | setUnknown name value => exact h.setUnknown name value
      | setUnknownBorrowed name value =>
          show Narrow (m.setUnknownBorrowed memory name value)
          unfold HeadersMap.setUnknownBorrowed
          split
          next unknown hmodify =>
            exact SlotTable.forall_modify h (fun _ _ => name.length_truncate16_lt) hmodify
          · exact h.placeUnknown name value
      | remove name =>
          show Narrow (m.remove memory name)
          unfold HeadersMap.remove
          split
          · split
            next unknown hmodify =>
              exact SlotTable.forall_modify h (fun _ _ => by norm_num [View.length]) hmodify
            · exact h
          · exact h.of_unknown (unknown_removeField _)
      | clear =>
          intro entry hentry
          rw [SlotTable.mem_slots_clear hentry]
          norm_num [View.length]

theorem narrow_operations (memory : List Byte) (operations : List HeadersOperation) :
    Narrow (operations.foldl (HeadersOperation.apply memory) {}) := by
  induction operations using List.reverseRecOn with
  | nil => exact narrow_initial
  | append_singleton operations operation ih =>
      rw [List.foldl_append]
      exact ih.apply operation

/-- A search compares the full length, which no stored name has. -/
theorem Narrow.getUnknown (h : Narrow m) {name : List Byte} (hlong : 2 ^ 16 ≤ name.length) :
    m.getUnknown memory name = none := by
  rw [HeadersMap.getUnknown, Option.map_eq_none_iff, SlotTable.find?, List.find?_eq_none]
  intro entry hentry hname
  have hshort := h entry hentry
  simp only [hasName, Bool.and_eq_true, decide_eq_true_eq] at hname
  omega

end Narrow

section Stored

variable {memory : List Byte} {m : HeadersMap} {name other : List Byte}

theorem hasName_stored (hname : name.length < 2 ^ 16) (value : View) :
    hasName memory name { name := (View.owned name).truncate16, value := value } = true := by
  rw [View.truncate16_owned hname]
  simp [hasName, View.isNull, View.length, ciEqual_refl]

theorem getUnknown_setUnknown_self (hname : name.length < 2 ^ 16) (value : List Byte) :
    (m.setUnknown memory name value).getUnknown memory name =
      some (View.owned value).truncate16 := by
  unfold setUnknown getUnknown placeUnknown
  split
  next unknown hmodify =>
    have hkeep : ∀ entry : UnknownEntry, hasName memory name entry = true →
        hasName memory name { entry with value := (View.owned value).truncate16 } = true :=
      fun _ hentry => hentry
    obtain ⟨entry, -, hfound⟩ := SlotTable.find?_modify_self hkeep hmodify
    simp [hfound]
  next hmodify =>
    have hentry : hasName memory name _ = true :=
      hasName_stored hname (View.owned value).truncate16
    have hfound := SlotTable.find?_place_self _ isVacant {} _ UNKNOWN_HEADERS_CHUNK_SIZE hentry
      (SlotTable.modify_eq_none hmodify)
    simp [hfound]

theorem getUnknown_setUnknown_other (hname : name.length < 2 ^ 16)
    (hother : ciEqual name other = false) (value : List Byte) :
    (m.setUnknown memory name value).getUnknown memory other = m.getUnknown memory other := by
  unfold setUnknown getUnknown placeUnknown
  split
  next unknown hmodify =>
    have hkeep : ∀ entry : UnknownEntry, hasName memory name entry = true →
        hasName memory other { entry with value := (View.owned value).truncate16 } = false :=
      fun _ hentry => hasName_disjoint hother hentry
    have hfound := SlotTable.find?_modify_other (hasName memory other)
      (fun _ hentry => hasName_disjoint hother hentry) hkeep hmodify
    simp [hfound]
  next hmodify =>
    have hentry : hasName memory name _ = true :=
      hasName_stored hname (View.owned value).truncate16
    have hfound := SlotTable.find?_place_other UNKNOWN_HEADERS_CHUNK_SIZE m.unknown
      (hasName_disjoint hother hentry) (hasName_vacant other {} rfl) (hasName_vacant other)
    simp [hfound]

theorem known_setUnknown (value : List Byte) :
    (m.setUnknown memory name value).known = m.known := by
  unfold setUnknown placeUnknown
  split <;> rfl

/-- The lookups agree on names that stand for one header. -/
theorem get_congr (hsame : (HeaderKey.ofName name).same (.ofName other) = true) :
    m.get memory name = m.get memory other := by
  unfold HeaderKey.ofName at hsame
  unfold HeadersMap.get
  by_cases hname : stringToField name = .unknown <;>
    by_cases hother : stringToField other = .unknown
  · rw [if_pos hname, if_pos hother] at hsame
    rw [if_pos hname, if_pos hother]
    unfold getUnknown
    rw [SlotTable.find?_congr]
    intro entry _
    rw [Bool.eq_iff_iff]
    exact ⟨hasName_congr hsame, hasName_congr (ciEqual_symm hsame)⟩
  · simp [hname, hother, HeaderKey.same] at hsame
  · simp [hname, hother, HeaderKey.same] at hsame
  · rw [if_neg hname, if_neg hother] at hsame
    have hfield : stringToField name = stringToField other := by
      simpa [HeaderKey.same] using hsame
    rw [if_neg hname, if_neg hother, hfield]

/-- What is read back has lost the end of a long value. -/
theorem get_setView (hname : stringToField name = .unknown → name.length < 2 ^ 16)
    (value : List Byte) :
    (m.setView memory name value).get memory name = some (View.owned value).truncate16 := by
  unfold setView HeadersMap.get
  by_cases hunknown : stringToField name = .unknown
  · rw [if_pos hunknown, if_pos hunknown]
    exact getUnknown_setUnknown_self (hname hunknown) value
  · rw [if_neg hunknown, if_neg hunknown]
    exact getField_setKnownBorrowed_self hunknown _ m

theorem get_setView_other (hname : stringToField name = .unknown → name.length < 2 ^ 16)
    (hsame : (HeaderKey.ofName name).same (.ofName other) = false) (value : List Byte) :
    (m.setView memory name value).get memory other = m.get memory other := by
  unfold HeaderKey.ofName at hsame
  unfold setView HeadersMap.get
  by_cases hunknown : stringToField name = .unknown <;>
    by_cases hother : stringToField other = .unknown
  · rw [if_pos hunknown, if_pos hother] at hsame
    rw [if_pos hunknown, if_pos hother, if_pos hother]
    exact getUnknown_setUnknown_other (hname hunknown) hsame value
  · rw [if_pos hunknown, if_neg hother, if_neg hother, getField, getField, known_setUnknown]
  · rw [if_neg hunknown, if_pos hother, if_pos hother, getUnknown, getUnknown, setKnown,
      unknown_setKnownBorrowed]
  · rw [if_neg hunknown, if_neg hother] at hsame
    have hfield : stringToField other ≠ stringToField name := by
      simpa [HeaderKey.same, eq_comm] using hsame
    rw [if_neg hunknown, if_neg hother, if_neg hother]
    exact getField_setKnownBorrowed_other hfield _ m

/-- A header that is found is among those that a loop visits. -/
theorem get_line {value : View} (hget : m.get memory name = some value) :
    ∃ shown, ciEqual shown name = true ∧ (shown, value.read memory) ∈ m.entries memory := by
  unfold HeadersMap.get at hget
  split at hget
  · obtain ⟨entry, hfound, rfl⟩ := Option.map_eq_some_iff.mp hget
    have hname := List.find?_some hfound
    refine ⟨entry.name.read memory, ?_, ?_⟩
    · simp only [hasName, Bool.and_eq_true] at hname
      exact hname.2
    · apply List.mem_append_right
      have hmem := List.mem_filter.mpr
        ⟨List.mem_of_find?_eq_some hfound, isNamed_of_hasName hname⟩
      exact List.mem_map_of_mem hmem
  next hknown =>
    rw [getField, if_neg hknown] at hget
    obtain ⟨entry, hfound, rfl⟩ := Option.map_eq_some_iff.mp hget
    have hkey : entry.key = stringToField name := by simpa [hasKey] using List.find?_some hfound
    refine ⟨fieldToString (stringToField name), stringToField_sound rfl hknown, ?_⟩
    apply List.mem_append_left
    rw [← hkey]
    have hmem := List.mem_filter.mpr
      ⟨List.mem_of_find?_eq_some hfound, isKnown_of_hasKey hknown (by simp [hasKey, hkey])⟩
    exact List.mem_map_of_mem hmem

/-- Setting a header that is there changes its slot and nothing else. -/
theorem setView_found {value : View} (hget : m.get memory name = some value)
    (value' : List Byte) :
    (m.setView memory name value').size = m.size ∧
      ((m.setView memory name value').entries memory).length = (m.entries memory).length := by
  rw [length_entries, length_entries]
  unfold HeadersMap.get at hget
  unfold setView
  split at hget
  next hunknown =>
    obtain ⟨entry, hfound, -⟩ := Option.map_eq_some_iff.mp hget
    rw [if_pos hunknown, known_setUnknown]
    unfold setUnknown
    split
    next unknown hmodify =>
      obtain ⟨entry, -, -, hcount⟩ := SlotTable.countP_modify isNamed hmodify
      refine ⟨rfl, ?_⟩
      exact congrArg _ (Nat.add_right_cancel hcount)
    next hmodify =>
      have hnot := SlotTable.modify_eq_none hmodify entry (List.mem_of_find?_eq_some hfound)
      rw [List.find?_some hfound] at hnot
      cases hnot
  next hknown =>
    rw [getField, if_neg hknown] at hget
    obtain ⟨entry, hfound, -⟩ := Option.map_eq_some_iff.mp hget
    rw [if_neg hknown, setKnown, unknown_setKnownBorrowed]
    unfold setKnownBorrowed
    rw [if_neg hknown]
    dsimp only
    split
    next known hmodify =>
      obtain ⟨entry, -, hkey, hcount⟩ := SlotTable.countP_modify isKnown hmodify
      refine ⟨rfl, ?_⟩
      rw [if_pos (isKnown_of_hasKey hknown hkey)] at hcount
      have hnew : isKnown ⟨stringToField name, (View.owned value').truncate16⟩ = true := by
        simp [isKnown, hknown]
      rw [if_pos hnew] at hcount
      exact congrArg (· + _) (Nat.add_right_cancel hcount)
    next hmodify =>
      have hnot := SlotTable.modify_eq_none hmodify entry (List.mem_of_find?_eq_some hfound)
      rw [List.find?_some hfound] at hnot
      cases hnot

/-- A short name and a short value are stored whole. -/
theorem storesWhole {value : List Byte}
    (hname : stringToField name = .unknown → name.length < 2 ^ 16)
    (hvalue : value.length < 2 ^ 16) : m.StoresWhole memory name value := by
  have hget : (m.setView memory name value).get memory name = some (.owned value) := by
    rw [get_setView hname, View.truncate16_owned hvalue]
  refine ⟨?_, ?_, ?_, ?_⟩
  · rw [hget]
    rfl
  · intro name' value' hsame
    have hget' := (get_congr hsame).symm.trans hget
    obtain ⟨hsize, hlength⟩ := setView_found hget' value'
    exact ⟨hsize, hlength, get_congr hsame⟩
  · intro other hsame
    exact get_setView_other hname hsame value
  · obtain ⟨shown, hshown, hmem⟩ := get_line hget
    refine ⟨shown, hshown, hmem, ?_⟩
    intro resp hentries hlength
    apply Response.headerLine_within _ hlength
    rw [hentries]
    exact hmem

end Stored

/-- In every state that calls lead to, `set_view` stores a header whole exactly if the
value, and a name that is not in the table, are shorter than 64 KiB. -/
theorem storesWhole_iff (memory : List Byte) (operations : List HeadersOperation)
    (name value : List Byte) :
    (operations.foldl (HeadersOperation.apply memory) {}).StoresWhole memory name value ↔
      value.length < 2 ^ 16 ∧ (stringToField name = .unknown → name.length < 2 ^ 16) := by
  constructor
  · intro hwhole
    have hname : stringToField name = .unknown → name.length < 2 ^ 16 := by
      intro hunknown
      by_contra hlong
      have hnarrow : Narrow (setUnknown memory name value _) :=
        (narrow_operations memory operations).setUnknown name value
      have hget := hwhole.get
      rw [setView, if_pos hunknown, HeadersMap.get, if_pos hunknown,
        hnarrow.getUnknown (not_lt.mp hlong)] at hget
      cases hget
    refine ⟨?_, hname⟩
    have hget := hwhole.get
    rw [get_setView hname, Option.map_some, Option.some.injEq] at hget
    exact (View.read_truncate16_owned_iff).mp hget
  · rintro ⟨hvalue, hname⟩
    exact storesWhole hname hvalue

/-- A value of 65536 bytes is read back empty. -/
theorem not_storesWhole_host :
    ¬ ({} : HeadersMap).StoresWhole [] (bytesOf "Host") (List.replicate 65536 97) := by
  intro hwhole
  have hhost : stringToField (bytesOf "Host") ≠ .unknown := by
    decide +kernel
  have hget := hwhole.get
  rw [get_setView (fun hunknown => absurd hunknown hhost), Option.map_some,
    Option.some.injEq] at hget
  have hshort := (View.read_truncate16_owned_iff).mp hget
  rw [List.length_replicate] at hshort
  norm_num at hshort

end HeadersMap

end Http
end Katana
