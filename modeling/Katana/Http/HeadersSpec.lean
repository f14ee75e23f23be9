import Katana.Http.HeadersIterator

/-!
# The header map as a finite map

A header is known by its field or, if its name is not in the table, by the name
up to case.  Whatever calls are made, the header map stores for each such key
the value that was last set and not removed, and it stores it once.
-/

namespace Katana
namespace Http

open Library

/-! ## Keys -/

inductive HeaderKey where
  | field (f : Field)
  | name (text : List Byte)

namespace HeaderKey

/-- The key that a name stands for. -/
def ofName (name : List Byte) : HeaderKey :=
  if stringToField name = .unknown then .name name else .field (stringToField name)

def same : HeaderKey → HeaderKey → Bool
  | .field f, .field g => f = g
  | .name a, .name b => ciEqual a b
  | _, _ => false

/-- The name that the iterator shows. -/
def text : HeaderKey → List Byte
  | .field f => fieldToString f
  | .name text => text

theorem same_refl (key : HeaderKey) : key.same key = true := by
  cases key with
  | field f => simp [same]
  | name text => exact ciEqual_refl text

end HeaderKey

/-- What a header map is meant to be. -/
def HeaderSpec : Type := HeaderKey → Option (List Byte)

namespace HeaderSpec

def empty : HeaderSpec := fun _ => none

def set (key : HeaderKey) (value : List Byte) (spec : HeaderSpec) : HeaderSpec :=
  fun other => if key.same other then some value else spec other

def remove (key : HeaderKey) (spec : HeaderSpec) : HeaderSpec :=
  fun other => if key.same other then none else spec other

end HeaderSpec

/-! ## Calls -/

/-- The calls that change a header map.  Borrowed names and values are views of
memory that nobody changes. -/
inductive HeadersCall where
  | setView (name value : List Byte)
  | setKnown (f : Field) (value : List Byte)
  | setKnownBorrowed (f : Field) (value : View)
  | setUnknown (name value : List Byte)
  | setUnknownBorrowed (name value : View)
  | remove (name : List Byte)
  | clear

/-- A view of bytes that are there, and of less than 64 KiB of them. -/
def View.Fits (memory : List Byte) (view : View) : Prop :=
  view.Within memory.length ∧ view.length < 2 ^ 16

instance (memory : List Byte) (view : View) : Decidable (view.Fits memory) := by
  unfold View.Fits View.Within
  cases view <;> infer_instance

namespace HeadersCall

def Admissible (memory : List Byte) : HeadersCall → Prop
  | setView name value => name.length < 2 ^ 16 ∧ value.length < 2 ^ 16
  | setKnown f value => f ≠ .unknown ∧ value.length < 2 ^ 16
  | setKnownBorrowed f value => f ≠ .unknown ∧ value.Fits memory
  | setUnknown name value =>
      stringToField name = .unknown ∧ name.length < 2 ^ 16 ∧ value.length < 2 ^ 16
  | setUnknownBorrowed name value =>
      stringToField (name.read memory) = .unknown ∧ name.isNull = false ∧ name.Fits memory ∧
        value.Fits memory
  | remove _ => True
  | clear => True

def apply (memory : List Byte) (m : HeadersMap) : HeadersCall → HeadersMap
  | setView name value => m.setView memory name value
  | setKnown f value => m.setKnown f value
  | setKnownBorrowed f value => m.setKnownBorrowed f value
  | setUnknown name value => m.setUnknown memory name value
  | setUnknownBorrowed name value => m.setUnknownBorrowed memory name value
  | remove name => m.remove memory name
  | clear => m.clear

def meaning (memory : List Byte) (spec : HeaderSpec) : HeadersCall → HeaderSpec
  | setView name value => spec.set (.ofName name) value
  | setKnown f value => spec.set (.field f) value
  | setKnownBorrowed f value => spec.set (.field f) (value.read memory)
  | setUnknown name value => spec.set (.name name) value
  | setUnknownBorrowed name value => spec.set (.name (name.read memory)) (value.read memory)
  | remove name => spec.remove (.ofName name)
  | clear => .empty

end HeadersCall

theorem View.Fits.truncate16 {memory : List Byte} {view : View} (h : view.Fits memory) :
    view.truncate16 = view := by
  cases view with
  | null => rfl
  | buffer offset length =>
      have hlength : length < 2 ^ 16 := h.2
      rw [View.truncate16, Nat.mod_eq_of_lt hlength]
  | owned bytes => exact View.truncate16_owned h.2

theorem View.Fits.length_eq {memory : List Byte} {view : View} (h : view.Fits memory) :
    view.length = (view.read memory).length := by
  cases view with
  | null => rfl
  | buffer offset length =>
      have hinside : offset + length ≤ memory.length := h.1
      rw [View.read_buffer, List.length_take, List.length_drop, View.length]
      omega
  | owned bytes => rfl

theorem View.fits_owned {memory bytes : List Byte} (h : bytes.length < 2 ^ 16) :
    (View.owned bytes).Fits memory :=
  ⟨trivial, h⟩

namespace HeadersMap

/-- The test for a known field; a vacant slot passes none. -/
def hasField (f : Field) (entry : KnownEntry) : Bool :=
  f ≠ .unknown && hasKey f entry

theorem fieldTests : KeyTests hasField fun f g => f = g where
  symm f g := by
    simp [eq_comm]
  decides f g entry hentry := by
    simp only [hasField, hasKey, Bool.and_eq_true, decide_eq_true_eq] at hentry ⊢
    rw [hentry.2]
    by_cases hsame : f = g
    · simp [← hsame, hentry.1]
    · simp [hsame]

theorem nameTests (memory : List Byte) : KeyTests (hasName memory) ciEqual where
  symm := ciEqual_comm
  decides name other entry hentry := by
    cases hnames : ciEqual name other with
    | true => exact hasName_congr hnames hentry
    | false => exact hasName_disjoint hnames hentry

/-- The stored headers, in the order in which the iterator visits them. -/
def present (memory : List Byte) (m : HeadersMap) : List (HeaderKey × List Byte) :=
  (m.known.slots.filter isKnown).map (fun entry => (.field entry.key, entry.value.read memory)) ++
    (m.unknown.slots.filter isNamed).map
      fun entry => (.name (entry.name.read memory), entry.value.read memory)

theorem entries_eq_present (memory : List Byte) (m : HeadersMap) :
    m.entries memory = (m.present memory).map fun header => (header.1.text, header.2) := by
  simp only [entries, present, List.map_append, List.map_map]
  rfl

/-- The two tables hold what the specification says. -/
structure Refines (memory : List Byte) (spec : HeaderSpec) (m : HeadersMap) : Prop where
  shaped : m.Shaped
  known : m.known.Represents hasField (fun entry => entry.value.read memory)
    fun f => spec (.field f)
  unknown : m.unknown.Represents (hasName memory) (fun entry => entry.value.read memory)
    fun name => spec (.name name)
  names : ∀ entry ∈ m.unknown.slots, entry.name.length = (entry.name.read memory).length

section Steps

variable {memory : List Byte} {spec : HeaderSpec} {m : HeadersMap}

theorem hasField_vacant (f : Field) (entry : KnownEntry) (hvacant : hasKey .unknown entry = true) :
    hasField f entry = false := by
  simp only [hasKey, decide_eq_true_eq] at hvacant
  by_cases hf : f = .unknown
  · simp [hasField, hf]
  · simp [hasField, hasKey, hvacant, Ne.symm hf]

theorem hasName_vacant (name : List Byte) (entry : UnknownEntry)
    (hvacant : isVacant entry = true) : hasName memory name entry = false := by
  have hnull : entry.name.isNull = true := hvacant
  simp [hasName, hnull]

/-- For a field of the table the two tests agree. -/
theorem hasField_eq {f : Field} (hf : f ≠ .unknown) : hasField f = hasKey f := by
  funext entry
  simp [hasField, hf]

/-- Tables of vacant slots. -/
theorem refines_blank (hshaped : m.Shaped) (hknown : ∀ entry ∈ m.known.slots, entry = {})
    (hunknown : ∀ entry ∈ m.unknown.slots, entry = {}) : Refines memory .empty m := by
  refine ⟨hshaped, ?_, ?_, ?_⟩
  · apply SlotTable.represents_blank
    intro entry hentry f
    rw [hknown entry hentry]
    exact hasField_vacant f {} rfl
  · apply SlotTable.represents_blank
    intro entry hentry name
    rw [hunknown entry hentry]
    exact hasName_vacant name {} rfl
  · intro entry hentry
    rw [hunknown entry hentry]
    rfl

theorem refines_initial : Refines memory .empty {} := by
  apply refines_blank
  · exact ⟨⟨by simp, by simp⟩, ⟨by simp, by simp⟩⟩
  · intro entry hentry
    rw [SlotTable.slots, List.flatten_nil, List.append_nil] at hentry
    exact List.eq_of_mem_replicate hentry
  · intro entry hentry
    rw [SlotTable.slots, List.flatten_nil, List.append_nil] at hentry
    exact List.eq_of_mem_replicate hentry

theorem Refines.clear (h : Refines memory spec m) : Refines memory .empty m.clear := by
  apply refines_blank
  · exact ⟨h.shaped.known.clear {}, h.shaped.unknown.clear {}⟩
  · intro entry hentry
    exact SlotTable.mem_slots_clear hentry
  · intro entry hentry
    exact SlotTable.mem_slots_clear hentry

theorem Refines.setKnownBorrowed (h : Refines memory spec m) {f : Field} (hf : f ≠ .unknown)
    {value : View} (hvalue : value.Fits memory) :
    Refines memory (spec.set (.field f) (value.read memory)) (m.setKnownBorrowed f value) := by
  have hkey : hasField f { key := f, value := value.truncate16 } = true := by
    simp [hasField, hasKey, hf]
  have hread : value.truncate16.read memory = value.read memory := by
    rw [hvalue.truncate16]
  unfold HeadersMap.setKnownBorrowed
  rw [if_neg hf]
  dsimp only
  rw [← hasField_eq hf]
  cases hmodify : m.known.modify (hasField f)
      fun _ => { key := f, value := value.truncate16 } with
  | some known =>
      refine ⟨⟨h.shaped.known.modify hmodify, h.shaped.unknown⟩, ?_, h.unknown, h.names⟩
      exact h.known.modify fieldTests (fun _ _ => hkey) (fun _ => hread) hmodify
  | none =>
      refine ⟨⟨h.shaped.known.place (by decide) _ _ _, h.shaped.unknown⟩, ?_, h.unknown, h.names⟩
      have hplaced := h.known.place fieldTests KNOWN_HEADERS_CHUNK_SIZE
        (SlotTable.modify_eq_none hmodify) hkey (fun g => hasField_vacant g {} rfl) hasField_vacant
      dsimp only at hplaced
      rw [hread] at hplaced
      exact hplaced

/-- A new entry for a name that has none. -/
theorem Refines.placeUnknown (h : Refines memory spec m) {name value : View}
    (hnull : name.isNull = false) (hname : name.Fits memory) (hvalue : value.Fits memory)
    (habsent : ∀ entry ∈ m.unknown.slots, hasName memory (name.read memory) entry = false) :
    Refines memory (spec.set (.name (name.read memory)) (value.read memory))
      (m.placeUnknown name value) := by
  have hentry : hasName memory (name.read memory) { name := name, value := value } = true := by
    simp [hasName, hnull, hname.length_eq, ciEqual_refl]
  unfold HeadersMap.placeUnknown
  rw [hname.truncate16, hvalue.truncate16]
  refine ⟨⟨h.shaped.known, h.shaped.unknown.place (by decide) _ _ _⟩, h.known, ?_, ?_⟩
  · exact h.unknown.place (nameTests memory) UNKNOWN_HEADERS_CHUNK_SIZE habsent hentry
      (fun other => hasName_vacant other {} rfl) hasName_vacant
  · exact SlotTable.forall_place h.names hname.length_eq rfl

theorem Refines.setUnknown (h : Refines memory spec m) {name value : List Byte}
    (hname : name.length < 2 ^ 16) (hvalue : value.length < 2 ^ 16) :
    Refines memory (spec.set (.name name) value) (m.setUnknown memory name value) := by
  unfold HeadersMap.setUnknown
  rw [View.truncate16_owned hvalue]
  cases hmodify : m.unknown.modify (hasName memory name) fun entry =>
      { entry with value := .owned value } with
  | some unknown =>
      refine ⟨⟨h.shaped.known, h.shaped.unknown.modify hmodify⟩, h.known, ?_, ?_⟩
      · have hkeep : ∀ entry : UnknownEntry, hasName memory name entry = true →
            hasName memory name { entry with value := .owned value } = true :=
          fun _ hentry => hentry
        exact h.unknown.modify (nameTests memory) hkeep (fun _ => rfl) hmodify
      · have hnames : ∀ entry ∈ m.unknown.slots,
            ({ entry with value := .owned value } : UnknownEntry).name.length =
              (entry.name.read memory).length := h.names
        exact SlotTable.forall_modify h.names hnames hmodify
  | none =>
      exact h.placeUnknown rfl (View.fits_owned hname) (View.fits_owned hvalue)
        (SlotTable.modify_eq_none hmodify)

theorem Refines.setUnknownBorrowed (h : Refines memory spec m) {name value : View}
    (hnull : name.isNull = false) (hname : name.Fits memory) (hvalue : value.Fits memory) :
    Refines memory (spec.set (.name (name.read memory)) (value.read memory))
      (m.setUnknownBorrowed memory name value) := by
  have hentry : hasName memory (name.read memory) { name := name, value := value } = true := by
    simp [hasName, hnull, hname.length_eq, ciEqual_refl]
  unfold HeadersMap.setUnknownBorrowed
  rw [hname.truncate16, hvalue.truncate16]
  cases hmodify : m.unknown.modify (hasName memory (name.read memory)) fun _ =>
      { name := name, value := value } with
  | some unknown =>
      refine ⟨⟨h.shaped.known, h.shaped.unknown.modify hmodify⟩, h.known, ?_, ?_⟩
      · exact h.unknown.modify (nameTests memory) (fun _ _ => hentry) (fun _ => rfl) hmodify
      · exact SlotTable.forall_modify h.names (fun _ _ => hname.length_eq) hmodify
  | none => exact h.placeUnknown hnull hname hvalue (SlotTable.modify_eq_none hmodify)

theorem Refines.setView (h : Refines memory spec m) {name value : List Byte}
    (hname : name.length < 2 ^ 16) (hvalue : value.length < 2 ^ 16) :
    Refines memory (spec.set (.ofName name) value) (m.setView memory name value) := by
  unfold HeadersMap.setView HeaderKey.ofName
  split
  · exact h.setUnknown hname hvalue
  next hknown => exact h.setKnownBorrowed hknown (View.fits_owned hvalue)

theorem Refines.removeField (h : Refines memory spec m) {f : Field} (hf : f ≠ .unknown) :
    Refines memory (spec.remove (.field f)) (m.removeField f) := by
  unfold HeadersMap.removeField
  rw [← hasField_eq hf]
  cases hmodify : m.known.modify (hasField f) fun _ => {} with
  | some known =>
      refine ⟨⟨h.shaped.known.modify hmodify, h.shaped.unknown⟩, ?_, h.unknown, h.names⟩
      exact h.known.erase fieldTests (fun g => hasField_vacant g {} rfl) hmodify
  | none =>
      refine ⟨h.shaped, ?_, h.unknown, h.names⟩
      exact h.known.erase_absent fieldTests (SlotTable.modify_eq_none hmodify)

theorem Refines.remove (h : Refines memory spec m) (name : List Byte) :
    Refines memory (spec.remove (.ofName name)) (m.remove memory name) := by
  unfold HeadersMap.remove HeaderKey.ofName
  split
  · cases hmodify : m.unknown.modify (hasName memory name) fun _ => {} with
    | some unknown =>
        refine ⟨⟨h.shaped.known, h.shaped.unknown.modify hmodify⟩, h.known, ?_, ?_⟩
        · exact h.unknown.erase (nameTests memory) (fun other => hasName_vacant other {} rfl)
            hmodify
        · exact SlotTable.forall_modify h.names (fun _ _ => rfl) hmodify
    | none =>
        refine ⟨h.shaped, h.known, ?_, h.names⟩
        exact h.unknown.erase_absent (nameTests memory) (SlotTable.modify_eq_none hmodify)
  next hknown => exact h.removeField hknown

/-- One call, whatever it is. -/
theorem Refines.call (h : Refines memory spec m) {call : HeadersCall}
    (hcall : call.Admissible memory) :
    Refines memory (call.meaning memory spec) (call.apply memory m) := by
  cases call with
  | setView name value => exact h.setView hcall.1 hcall.2
  | setKnown f value => exact h.setKnownBorrowed hcall.1 (View.fits_owned hcall.2)
  | setKnownBorrowed f value => exact h.setKnownBorrowed hcall.1 hcall.2
  | setUnknown name value => exact h.setUnknown hcall.2.1 hcall.2.2
  | setUnknownBorrowed name value =>
      exact h.setUnknownBorrowed hcall.2.1 hcall.2.2.1 hcall.2.2.2
  | remove name => exact h.remove name
  | clear => exact h.clear

/-- All calls, by induction from one. -/
theorem Refines.calls (h : Refines memory spec m) {calls : List HeadersCall}
    (hcalls : ∀ call ∈ calls, call.Admissible memory) :
    Refines memory (calls.foldl (HeadersCall.meaning memory) spec)
      (calls.foldl (HeadersCall.apply memory) m) := by
  induction calls generalizing spec m with
  | nil => exact h
  | cons call calls ih =>
      exact ih (h.call (hcalls call (by simp))) fun c hc => hcalls c (by simp [hc])

/-! ## Observations -/

theorem Refines.get (h : Refines memory spec m) (name : List Byte) :
    (m.get memory name).map (·.read memory) = spec (.ofName name) := by
  unfold HeadersMap.get HeaderKey.ofName
  split
  · rw [getUnknown, Option.map_map]
    exact h.unknown.find name
  next hknown =>
    rw [getField, if_neg hknown, ← hasField_eq hknown, Option.map_map]
    exact h.known.find (stringToField name)

theorem Refines.contains (h : Refines memory spec m) (name : List Byte) :
    m.contains memory name = (spec (.ofName name)).isSome := by
  rw [← h.get name, Option.isSome_map]
  unfold HeadersMap.contains HeadersMap.get
  split
  · rw [getUnknown, Option.isSome_map]
  next hknown => rw [containsField, getField, if_neg hknown, Option.isSome_map]

/-- The stored headers with a given key: the one of the specification, if any. -/
theorem Refines.present (h : Refines memory spec m) (key : HeaderKey) :
    ((m.present memory).filter fun header => key.same header.1).map (·.2) =
      (spec key).toList := by
  rw [HeadersMap.present, List.filter_append, List.filter_map, List.filter_map, List.filter_filter,
    List.filter_filter, List.map_append, List.map_map, List.map_map]
  cases key with
  | field f =>
      have hother : m.unknown.slots.filter (fun entry =>
          ((fun header : HeaderKey × List Byte => (HeaderKey.field f).same header.1) ∘
            fun entry => (.name (entry.name.read memory), entry.value.read memory)) entry &&
              isNamed entry) = [] := by
        simp [HeaderKey.same]
      have htest : (fun entry : KnownEntry =>
          ((fun header : HeaderKey × List Byte => (HeaderKey.field f).same header.1) ∘
            fun entry => (.field entry.key, entry.value.read memory)) entry && isKnown entry) =
              hasField f := by
        funext entry
        by_cases hkey : f = entry.key
        · simp [HeaderKey.same, isKnown, hasField, hasKey, hkey]
        · simp [HeaderKey.same, isKnown, hasField, hasKey, hkey, Ne.symm hkey]
      rw [hother, htest, List.map_nil, List.append_nil]
      exact h.known f
  | name text =>
      have hother : m.known.slots.filter (fun entry =>
          ((fun header : HeaderKey × List Byte => (HeaderKey.name text).same header.1) ∘
            fun entry => (.field entry.key, entry.value.read memory)) entry &&
              isKnown entry) = [] := by
        simp [HeaderKey.same]
      have htest : m.unknown.slots.filter (fun entry =>
          ((fun header : HeaderKey × List Byte => (HeaderKey.name text).same header.1) ∘
            fun entry => (.name (entry.name.read memory), entry.value.read memory)) entry &&
              isNamed entry) = m.unknown.slots.filter (hasName memory text) := by
        apply List.filter_congr
        intro entry hentry
        show (ciEqual text (entry.name.read memory) && !entry.name.isNull) = _
        rw [hasName, h.names entry hentry, ciEqual_comm]
        cases hequal : ciEqual (entry.name.read memory) text with
        | true => simp [ciEqual_length hequal]
        | false => simp
      rw [hother, htest, List.map_nil, List.nil_append]
      exact h.unknown text

/-- No two stored headers have the same key. -/
theorem Refines.distinct (h : Refines memory spec m) :
    (m.present memory).Pairwise fun a b => a.1.same b.1 = false := by
  have hone : ∀ key, ((m.present memory).filter fun header : HeaderKey × List Byte =>
      HeaderKey.same key header.1).length ≤ 1 := by
    intro key
    have hkey := congrArg List.length (h.present key)
    rw [List.length_map] at hkey
    rw [hkey]
    cases spec key <;> simp
  refine (pairwise_of_filter_le_one hone).imp fun {a b} hab => ?_
  exact hab a.1 a.1.same_refl

end Steps

/-- After any calls: `get` and `contains` answer as the finite map does, no two
stored headers have the same key, and the loop over all headers ends having been
given each of them once, with its current value. -/
theorem headers_refine (memory : List Byte) (calls : List HeadersCall)
    (hcalls : ∀ call ∈ calls, call.Admissible memory) :
    let m := calls.foldl (HeadersCall.apply memory) {}
    let spec := calls.foldl (HeadersCall.meaning memory) .empty
    (∀ name, (m.get memory name).map (·.read memory) = spec (.ofName name) ∧
        m.contains memory name = (spec (.ofName name)).isSome) ∧
      ((m.present memory).Pairwise fun a b => a.1.same b.1 = false) ∧
      EndsWith (visitPass memory m) (m.begin, [])
        ((m.present memory).map fun header => (header.1.text, header.2)) ∧
      ∀ key, ((m.present memory).filter fun header => key.same header.1).map (·.2) =
        (spec key).toList := by
  have hinitial : Refines memory .empty {} := refines_initial
  have hrefines := hinitial.calls hcalls
  refine ⟨fun name => ⟨hrefines.get name, hrefines.contains name⟩, hrefines.distinct, ?_,
    hrefines.present⟩
  rw [← entries_eq_present]
  exact visitsFrom_begin hrefines.shaped []

/-- A header set twice, and another set and removed. -/
def hostCalls : List HeadersCall :=
  [.setView (bytesOf "Host") (bytesOf "a"), .setKnown .date (bytesOf "c"),
    .setView (bytesOf "HOST") (bytesOf "b"), .remove (bytesOf "date")]

theorem headers_refine_host :
    let m := hostCalls.foldl (HeadersCall.apply []) {}
    (m.get [] (bytesOf "Host")).map (·.read []) = some (bytesOf "b") ∧
      m.contains [] (bytesOf "Date") = false ∧
      EndsWith (visitPass [] m) (m.begin, []) [(bytesOf "Host", bytesOf "b")] := by
  have hcalls : ∀ call ∈ hostCalls, call.Admissible [] := by
    simp [hostCalls, HeadersCall.Admissible, bytesOf]
  obtain ⟨hget, -, hvisits, -⟩ := headers_refine [] hostCalls hcalls
  refine ⟨(hget _).1.trans ?_, (hget _).2.trans ?_, hvisits⟩
  · decide +kernel
  · decide +kernel

end HeadersMap

end Http
end Katana
