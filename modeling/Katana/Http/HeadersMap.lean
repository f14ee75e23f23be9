import Katana.Http.Field
import Katana.Library.SlotTable

/-!
# The header map

Known headers are stored by field and all others by name, each in a slot table.
Values are views: the parser stores views into its input buffer, so looking up a
name takes the bytes the buffer holds at that moment.  Lengths are kept in
sixteen bits.  Chunk and string allocation is taken to succeed.
-/

namespace Katana
namespace Http

open Library

structure KnownEntry where
  key : Field := .unknown
  value : View := .null

structure UnknownEntry where
  name : View := .null
  value : View := .null

def KNOWN_HEADERS_INLINE_SIZE : ℕ := 16
def KNOWN_HEADERS_CHUNK_SIZE : ℕ := 16
def UNKNOWN_HEADERS_INLINE_SIZE : ℕ := 8
def UNKNOWN_HEADERS_CHUNK_SIZE : ℕ := 8

structure HeadersMap where
  known : SlotTable KnownEntry := ⟨List.replicate KNOWN_HEADERS_INLINE_SIZE {}, []⟩
  knownSize : ℕ := 0
  unknown : SlotTable UnknownEntry := ⟨List.replicate UNKNOWN_HEADERS_INLINE_SIZE {}, []⟩
  unknownSize : ℕ := 0

def View.length : View → ℕ
  | .null => 0
  | .buffer _ length => length
  | .owned bytes => bytes.length

namespace HeadersMap

/-- The test of `find_known_entry`; for the unknown field it finds a vacant slot. -/
def hasKey (f : Field) (entry : KnownEntry) : Bool :=
  entry.key = f

/-- The test of `find_unknown_entry`. -/
def hasName (memory name : List Byte) (entry : UnknownEntry) : Bool :=
  !entry.name.isNull && entry.name.length = name.length &&
    ciEqual (entry.name.read memory) name

def isVacant (entry : UnknownEntry) : Bool :=
  entry.name.isNull

def setKnownBorrowed (f : Field) (value : View) (m : HeadersMap) : HeadersMap :=
  if f = .unknown then m
  else
    let entry : KnownEntry := { key := f, value := value.truncate16 }
    match m.known.modify (hasKey f) fun _ => entry with
    | some known => { m with known }
    | none =>
        { m with
          known := m.known.place (hasKey .unknown) {} KNOWN_HEADERS_CHUNK_SIZE entry
          knownSize := m.knownSize + 1 }

/-- `set_known` stores a copy made in the arena. -/
def setKnown (f : Field) (value : List Byte) (m : HeadersMap) : HeadersMap :=
  m.setKnownBorrowed f (.owned value)

def placeUnknown (name value : View) (m : HeadersMap) : HeadersMap :=
  { m with
    unknown := m.unknown.place isVacant {} UNKNOWN_HEADERS_CHUNK_SIZE
      { name := name.truncate16, value := value.truncate16 }
    unknownSize := m.unknownSize + 1 }

/-- An entry with an equal name keeps its own spelling of it. -/
def setUnknown (memory name value : List Byte) (m : HeadersMap) : HeadersMap :=
  match m.unknown.modify (hasName memory name) fun entry =>
      { entry with value := (View.owned value).truncate16 } with
  | some unknown => { m with unknown }
  | none => m.placeUnknown (.owned name) (.owned value)

def setUnknownBorrowed (memory : List Byte) (name value : View) (m : HeadersMap) :
    HeadersMap :=
  match m.unknown.modify (hasName memory (name.read memory)) fun _ =>
      { name := name.truncate16, value := value.truncate16 } with
  | some unknown => { m with unknown }
  | none => m.placeUnknown name value

def setView (memory name value : List Byte) (m : HeadersMap) : HeadersMap :=
  if stringToField name = .unknown then m.setUnknown memory name value
  else m.setKnown (stringToField name) value

def getField (f : Field) (m : HeadersMap) : Option View :=
  if f = .unknown then none
  else (m.known.find? (hasKey f)).map (·.value)

def getUnknown (memory name : List Byte) (m : HeadersMap) : Option View :=
  (m.unknown.find? (hasName memory name)).map (·.value)

/-- `get` by name. -/
def get (memory name : List Byte) (m : HeadersMap) : Option View :=
  if stringToField name = .unknown then m.getUnknown memory name
  else m.getField (stringToField name)

def containsField (f : Field) (m : HeadersMap) : Bool :=
  (m.known.find? (hasKey f)).isSome

/-- Names and values in the order in which the iterator visits them. -/
def entries (memory : List Byte) (m : HeadersMap) : List (List Byte × List Byte) :=
  (m.known.slots.filter fun entry => entry.key ≠ .unknown).map
      (fun entry => (fieldToString entry.key, entry.value.read memory)) ++
    (m.unknown.slots.filter fun entry => !isVacant entry).map
      fun entry => (entry.name.read memory, entry.value.read memory)

/-! ## Known headers -/

theorem getField_setKnownBorrowed_self {f : Field} (hf : f ≠ .unknown) (value : View)
    (m : HeadersMap) :
    (m.setKnownBorrowed f value).getField f = some value.truncate16 := by
  unfold setKnownBorrowed getField
  simp only [hf, if_false]
  cases hmodify : m.known.modify (hasKey f) fun _ => { key := f, value := value.truncate16 } with
  | some known =>
      obtain ⟨a, -, hfound⟩ :=
        SlotTable.find?_modify_self (by intro a _; simp [hasKey]) hmodify
      simp [hfound]
  | none =>
      have hfound := SlotTable.find?_place_self (hasKey f) (hasKey .unknown) {}
        { key := f, value := value.truncate16 } KNOWN_HEADERS_CHUNK_SIZE (by simp [hasKey])
        (SlotTable.modify_eq_none hmodify)
      simp [hfound]

theorem getField_setKnownBorrowed_other {f g : Field} (hfg : g ≠ f) (value : View)
    (m : HeadersMap) : (m.setKnownBorrowed f value).getField g = m.getField g := by
  unfold setKnownBorrowed getField
  by_cases hf : f = .unknown
  · simp [hf]
  by_cases hg : g = .unknown
  · simp [hg]
  simp only [hf, hg, if_false]
  cases hmodify : m.known.modify (hasKey f) fun _ => { key := f, value := value.truncate16 } with
  | some known =>
      have hfound := SlotTable.find?_modify_other (hasKey g)
        (by
          intro a ha
          simp only [hasKey, decide_eq_true_eq, decide_eq_false_iff_not] at ha ⊢
          rw [ha]
          exact hfg.symm)
        (by
          intro a _
          simpa [hasKey] using hfg.symm) hmodify
      simp [hfound]
  | none =>
      have hstored : hasKey g { key := f, value := value.truncate16 } = false := by
        simpa [hasKey] using hfg.symm
      have hblank : hasKey g {} = false := by
        simpa [hasKey] using Ne.symm hg
      have hvacant : ∀ a, hasKey .unknown a = true → hasKey g a = false := by
        intro a ha
        simp only [hasKey, decide_eq_true_eq, decide_eq_false_iff_not] at ha ⊢
        rw [ha]
        exact Ne.symm hg
      have hfound := SlotTable.find?_place_other KNOWN_HEADERS_CHUNK_SIZE m.known hstored
        hblank hvacant
      simp [hfound]

@[simp] theorem unknown_setKnownBorrowed (f : Field) (value : View) (m : HeadersMap) :
    (m.setKnownBorrowed f value).unknown = m.unknown := by
  unfold setKnownBorrowed
  split
  · rfl
  · dsimp only
    split <;> rfl

@[simp] theorem known_setUnknownBorrowed (memory : List Byte) (name value : View)
    (m : HeadersMap) : (m.setUnknownBorrowed memory name value).known = m.known := by
  unfold setUnknownBorrowed placeUnknown
  split <;> rfl

/-! ## Other headers -/

theorem hasName_congr {memory name name' : List Byte} {entry : UnknownEntry}
    (hnames : ciEqual name name' = true) (h : hasName memory name entry = true) :
    hasName memory name' entry = true := by
  simp only [hasName, Bool.and_eq_true, decide_eq_true_eq] at h ⊢
  exact ⟨⟨h.1.1, h.1.2.trans (ciEqual_length hnames)⟩, ciEqual_trans h.2 hnames⟩

theorem hasName_disjoint {memory name name' : List Byte} {entry : UnknownEntry}
    (hnames : ciEqual name name' = false) (h : hasName memory name entry = true) :
    hasName memory name' entry = false := by
  by_contra hother
  rw [Bool.not_eq_false] at hother
  simp only [hasName, Bool.and_eq_true] at h hother
  have := ciEqual_trans (ciEqual_symm h.2) hother.2
  rw [hnames] at this
  cases this

/-- The entry made for a name carries that name. -/
theorem hasName_self {memory : List Byte} {name value : View} (hname : ¬ name.isNull)
    (hread : name.truncate16.read memory = name.read memory)
    (hlength : name.truncate16.length = (name.read memory).length) :
    hasName memory (name.read memory)
      { name := name.truncate16, value := value } = true := by
  have hnull : name.truncate16.isNull = false := by
    cases name with
    | null => simp [View.isNull] at hname
    | buffer offset length => rfl
    | owned bytes => rfl
  simp [hasName, hnull, hread, hlength, ciEqual_refl]

theorem getUnknown_setUnknownBorrowed_self {memory : List Byte} {name value : View}
    (m : HeadersMap)
    (hentry : hasName memory (name.read memory)
      { name := name.truncate16, value := value.truncate16 } = true) :
    (m.setUnknownBorrowed memory name value).getUnknown memory (name.read memory) =
      some value.truncate16 := by
  unfold setUnknownBorrowed getUnknown placeUnknown
  cases hmodify : m.unknown.modify (hasName memory (name.read memory))
      fun _ => { name := name.truncate16, value := value.truncate16 } with
  | some unknown =>
      obtain ⟨a, -, hfound⟩ :=
        SlotTable.find?_modify_self (fun _ _ => hentry) hmodify
      simp [hfound]
  | none =>
      have hfound := SlotTable.find?_place_self _ isVacant {} _ UNKNOWN_HEADERS_CHUNK_SIZE hentry
        (SlotTable.modify_eq_none hmodify)
      simp [hfound]

theorem getUnknown_setUnknownBorrowed_other {memory other : List Byte} {name value : View}
    (m : HeadersMap) (hother : ciEqual (name.read memory) other = false)
    (hentry : hasName memory (name.read memory)
      { name := name.truncate16, value := value.truncate16 } = true) :
    (m.setUnknownBorrowed memory name value).getUnknown memory other =
      m.getUnknown memory other := by
  unfold setUnknownBorrowed getUnknown placeUnknown
  cases hmodify : m.unknown.modify (hasName memory (name.read memory))
      fun _ => { name := name.truncate16, value := value.truncate16 } with
  | some unknown =>
      have hfound := SlotTable.find?_modify_other (hasName memory other)
        (fun a ha => hasName_disjoint hother ha)
        (fun _ _ => hasName_disjoint hother hentry) hmodify
      simp [hfound]
  | none =>
      have hblank : hasName memory other {} = false := by simp [hasName, View.isNull]
      have hvacant : ∀ a, isVacant a = true → hasName memory other a = false := by
        intro a ha
        have hnull : a.name.isNull = true := ha
        simp [hasName, hnull]
      have hfound := SlotTable.find?_place_other UNKNOWN_HEADERS_CHUNK_SIZE m.unknown
        (hasName_disjoint hother hentry) hblank hvacant
      simp [hfound]

/-! ## Views of a map -/

/-- Every view of the map lies in the first `bound` bytes of the buffer. -/
structure Within (bound : ℕ) (m : HeadersMap) : Prop where
  known : ∀ entry ∈ m.known.slots, entry.value.Within bound
  unknown : ∀ entry ∈ m.unknown.slots,
    entry.name.Within bound ∧ entry.value.Within bound

theorem within_initial (bound : ℕ) : Within bound {} := by
  constructor
  all_goals
    intro entry hentry
    rw [SlotTable.slots, List.flatten_nil, List.append_nil] at hentry
    rw [List.eq_of_mem_replicate hentry]
  · trivial
  · exact ⟨trivial, trivial⟩

theorem Within.mono {bound bound' : ℕ} {m : HeadersMap} (h : m.Within bound)
    (hle : bound ≤ bound') : m.Within bound' :=
  ⟨fun entry hentry => (h.known entry hentry).mono hle,
    fun entry hentry =>
      ⟨(h.unknown entry hentry).1.mono hle, (h.unknown entry hentry).2.mono hle⟩⟩

theorem Within.setKnownBorrowed {bound : ℕ} {m : HeadersMap} (h : m.Within bound) (f : Field)
    {value : View} (hvalue : value.Within bound) :
    (m.setKnownBorrowed f value).Within bound := by
  unfold HeadersMap.setKnownBorrowed
  split
  · exact h
  dsimp only
  split
  next known hmodify =>
    exact ⟨SlotTable.forall_modify h.known (fun _ _ => hvalue.truncate16) hmodify, h.unknown⟩
  · exact ⟨SlotTable.forall_place h.known hvalue.truncate16 trivial, h.unknown⟩

theorem Within.setUnknownBorrowed {bound : ℕ} {m : HeadersMap} (h : m.Within bound)
    (memory : List Byte) {name value : View} (hname : name.Within bound)
    (hvalue : value.Within bound) : (m.setUnknownBorrowed memory name value).Within bound := by
  unfold HeadersMap.setUnknownBorrowed
  split
  next unknown hmodify =>
    exact ⟨h.known, SlotTable.forall_modify h.unknown
      (fun _ _ => ⟨hname.truncate16, hvalue.truncate16⟩) hmodify⟩
  · exact ⟨h.known, SlotTable.forall_place h.unknown
      ⟨hname.truncate16, hvalue.truncate16⟩ ⟨trivial, trivial⟩⟩

theorem Within.getField {bound : ℕ} {m : HeadersMap} (h : m.Within bound) {f : Field}
    {value : View} (hfound : m.getField f = some value) : value.Within bound := by
  unfold HeadersMap.getField at hfound
  split at hfound
  · cases hfound
  · obtain ⟨entry, hentry, rfl⟩ := Option.map_eq_some_iff.mp hfound
    exact h.known entry (List.mem_of_find?_eq_some hentry)

theorem Within.get {bound : ℕ} {m : HeadersMap} (h : m.Within bound) {memory name : List Byte}
    {value : View} (hfound : m.get memory name = some value) : value.Within bound := by
  unfold HeadersMap.get at hfound
  split at hfound
  · obtain ⟨entry, hentry, rfl⟩ := Option.map_eq_some_iff.mp hfound
    exact (h.unknown entry (List.mem_of_find?_eq_some hentry)).2
  · exact h.getField hfound

section SameMemory

variable {bound : ℕ} {m : HeadersMap} {memory memory' : List Byte}

theorem Within.hasName_eq (h : m.Within bound) (hagree : memory.take bound = memory'.take bound)
    (name : List Byte) : ∀ entry ∈ m.unknown.slots,
      hasName memory name entry = hasName memory' name entry := by
  intro entry hentry
  unfold hasName
  rw [(h.unknown entry hentry).1.read_eq hagree]

theorem Within.get_eq (h : m.Within bound) (hagree : memory.take bound = memory'.take bound)
    (name : List Byte) : m.get memory name = m.get memory' name := by
  unfold HeadersMap.get getUnknown
  rw [SlotTable.find?_congr (h.hasName_eq hagree name)]

theorem Within.setUnknownBorrowed_eq (h : m.Within bound)
    (hagree : memory.take bound = memory'.take bound) {name : View}
    (hname : name.Within bound) (value : View) :
    m.setUnknownBorrowed memory name value = m.setUnknownBorrowed memory' name value := by
  unfold HeadersMap.setUnknownBorrowed
  rw [← hname.read_eq hagree, SlotTable.modify_congr _ (h.hasName_eq hagree _)]

end SameMemory

end HeadersMap

end Http
end Katana
