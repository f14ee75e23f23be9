import Katana.Http.HeadersSpec
import Katana.Library.Transition

/-!
# The counts of the header map

The map counts its known and its other headers apart from the slots.  Removing a
field is meant for fields that stand for a header: asked to remove `unknown`, the
map finds a vacant slot, since a vacant slot holds this value, and counts one
header less.  It finds the same slot when asked whether it contains `unknown`.
-/

namespace Katana
namespace Http

open Library

/-- The calls that change a header map, and the question for a field. -/
inductive HeadersOperation where
  | change (call : HeadersCall)
  | removeField (f : Field)
  | containsField (f : Field)

namespace HeadersMap

def size (m : HeadersMap) : ℕ :=
  m.knownSize + m.unknownSize

def empty (m : HeadersMap) : Bool :=
  m.knownSize = 0 && m.unknownSize = 0

/-- A loop over the headers comes to one with this key. -/
def stores (memory : List Byte) (m : HeadersMap) (key : HeaderKey) : Bool :=
  (m.present memory).any fun header => key.same header.1

/-- What the counters say of the headers that a loop visits. -/
structure CountsExact (memory : List Byte) (m : HeadersMap) : Prop where
  visits : EndsWith (visitPass memory m) (m.begin, []) (m.entries memory)
  size : m.size = (m.entries memory).length
  empty : m.empty = true ↔ m.entries memory = []

/-- The counters agree with the slots. -/
structure Counted (m : HeadersMap) : Prop where
  shaped : m.Shaped
  knownSize : m.knownSize = m.known.slots.countP isKnown
  unknownSize : m.unknownSize = m.unknown.slots.countP isNamed

end HeadersMap

namespace HeadersOperation

def apply (memory : List Byte) (m : HeadersMap) : HeadersOperation → HeadersMap
  | change call => call.apply memory m
  | removeField f => m.removeField f
  | containsField _ => m

def step (memory : List Byte) (m : HeadersMap) (operation : HeadersOperation) :
    Option HeadersMap :=
  some (operation.apply memory m)

/-- Removing what is not there changes nothing, and only a field that is there is
said to be contained. -/
def Answers (memory : List Byte) (m : HeadersMap) : HeadersOperation → Prop
  | change (.remove name) =>
      m.stores memory (.ofName name) = false →
        (m.remove memory name).entries memory = m.entries memory ∧
          (m.remove memory name).size = m.size
  | removeField f =>
      m.stores memory (.field f) = false →
        (m.removeField f).entries memory = m.entries memory ∧ (m.removeField f).size = m.size
  | containsField f => m.containsField f = true → m.stores memory (.field f) = true
  | _ => True

/-- The field `unknown` is not given while a known slot is vacant, unless no known
header can be miscounted, and a borrowed name is not the null pointer. -/
def Regular (m : HeadersMap) : HeadersOperation → Prop
  | change (.setUnknownBorrowed name _) => name.isNull = false
  | removeField f =>
      f = .unknown → m.knownSize = 0 ∨ ∀ entry ∈ m.known.slots, entry.key ≠ .unknown
  | containsField f => f = .unknown → ∀ entry ∈ m.known.slots, entry.key ≠ .unknown
  | _ => True

end HeadersOperation

@[simp] theorem View.isNull_truncate16 (view : View) : view.truncate16.isNull = view.isNull := by
  cases view <;> rfl

namespace HeadersMap

section Counts

variable {memory : List Byte} {m : HeadersMap}

theorem length_entries (memory : List Byte) (m : HeadersMap) :
    (m.entries memory).length =
      m.known.slots.countP isKnown + m.unknown.slots.countP isNamed := by
  rw [entries, List.length_append, List.length_map, List.length_map, ← List.countP_eq_length_filter,
    ← List.countP_eq_length_filter]
  rfl

theorem Counted.countsExact (h : Counted m) : CountsExact memory m := by
  have hsize : m.size = (m.entries memory).length := by
    rw [length_entries, size, h.knownSize, h.unknownSize]
  refine ⟨visitsFrom_begin h.shaped [], hsize, ?_⟩
  rw [← List.length_eq_zero_iff, ← hsize]
  simp [empty, size]

theorem counted_initial : Counted {} := by
  refine ⟨⟨⟨by simp, by simp⟩, ⟨by simp, by simp⟩⟩, ?_, ?_⟩
  · symm
    apply List.countP_eq_zero.mpr
    intro entry hentry
    rw [SlotTable.slots, List.flatten_nil, List.append_nil] at hentry
    rw [List.eq_of_mem_replicate hentry]
    simp [isKnown]
  · symm
    apply List.countP_eq_zero.mpr
    intro entry hentry
    rw [SlotTable.slots, List.flatten_nil, List.append_nil] at hentry
    rw [List.eq_of_mem_replicate hentry]
    simp [isNamed, isVacant, View.isNull]

theorem Counted.clear (h : Counted m) : Counted m.clear := by
  refine ⟨⟨h.shaped.known.clear {}, h.shaped.unknown.clear {}⟩, ?_, ?_⟩
  · exact (SlotTable.countP_clear rfl).symm
  · exact (SlotTable.countP_clear rfl).symm

theorem isKnown_of_hasKey {f : Field} (hf : f ≠ .unknown) {entry : KnownEntry}
    (hkey : hasKey f entry = true) : isKnown entry = true := by
  simp only [hasKey, decide_eq_true_eq] at hkey
  simp [isKnown, hkey, hf]

theorem isKnown_of_vacant {entry : KnownEntry} (hkey : hasKey .unknown entry = true) :
    isKnown entry = false := by
  simp only [hasKey, decide_eq_true_eq] at hkey
  simp [isKnown, hkey]

theorem isNamed_of_hasName {name : List Byte} {entry : UnknownEntry}
    (hname : hasName memory name entry = true) : isNamed entry = true := by
  simp only [hasName, Bool.and_eq_true] at hname
  exact hname.1.1

theorem Counted.setKnownBorrowed (h : Counted m) (f : Field) (value : View) :
    Counted (m.setKnownBorrowed f value) := by
  unfold HeadersMap.setKnownBorrowed
  split
  · exact h
  next hf =>
    have hknown : isKnown { key := f, value := value.truncate16 } = true := by
      simp [isKnown, hf]
    dsimp only
    split
    next known hmodify =>
      obtain ⟨entry, -, hkey, hcount⟩ := SlotTable.countP_modify isKnown hmodify
      refine ⟨⟨h.shaped.known.modify hmodify, h.shaped.unknown⟩, ?_, h.unknownSize⟩
      rw [if_pos (isKnown_of_hasKey hf hkey), if_pos hknown] at hcount
      exact h.knownSize.trans (Nat.add_right_cancel hcount).symm
    · refine ⟨⟨h.shaped.known.place (by decide) _ _ _, h.shaped.unknown⟩, ?_, h.unknownSize⟩
      dsimp only
      rw [SlotTable.countP_place (fun _ => isKnown_of_vacant) rfl, if_pos hknown, h.knownSize]

theorem Counted.placeUnknown (h : Counted m) {name : View} (hname : name.isNull = false)
    (value : View) : Counted (m.placeUnknown name value) := by
  have hnamed : isNamed { name := name.truncate16, value := value.truncate16 } = true := by
    simp [isNamed, isVacant, hname]
  unfold HeadersMap.placeUnknown
  refine ⟨⟨h.shaped.known, h.shaped.unknown.place (by decide) _ _ _⟩, h.knownSize, ?_⟩
  dsimp only
  rw [SlotTable.countP_place (by simp [isNamed]) rfl, if_pos hnamed, h.unknownSize]

theorem Counted.setUnknown (h : Counted m) (name value : List Byte) :
    Counted (m.setUnknown memory name value) := by
  unfold HeadersMap.setUnknown
  split
  next unknown hmodify =>
    obtain ⟨entry, -, hname, hcount⟩ := SlotTable.countP_modify isNamed hmodify
    refine ⟨⟨h.shaped.known, h.shaped.unknown.modify hmodify⟩, h.knownSize, ?_⟩
    exact h.unknownSize.trans (Nat.add_right_cancel hcount).symm
  · exact h.placeUnknown rfl _

theorem Counted.setUnknownBorrowed (h : Counted m) {name : View} (hname : name.isNull = false)
    (value : View) : Counted (m.setUnknownBorrowed memory name value) := by
  have hnamed : isNamed { name := name.truncate16, value := value.truncate16 } = true := by
    simp [isNamed, isVacant, hname]
  unfold HeadersMap.setUnknownBorrowed
  split
  next unknown hmodify =>
    obtain ⟨entry, -, hfound, hcount⟩ := SlotTable.countP_modify isNamed hmodify
    refine ⟨⟨h.shaped.known, h.shaped.unknown.modify hmodify⟩, h.knownSize, ?_⟩
    rw [if_pos (isNamed_of_hasName hfound), if_pos hnamed] at hcount
    exact h.unknownSize.trans (Nat.add_right_cancel hcount).symm
  · exact h.placeUnknown hname value

/-- A null name leaves one counted header less than the counter says. -/
theorem Counted.not_countsExact (h : Counted m) {name : View} (hname : name.isNull = true)
    (value : View) : ¬ CountsExact memory (m.setUnknownBorrowed memory name value) := by
  have hblank : isNamed { name := name.truncate16, value := value.truncate16 } = false := by
    simp [isNamed, isVacant, hname]
  intro hexact
  have hsize := hexact.size
  rw [length_entries, known_setUnknownBorrowed] at hsize
  unfold HeadersMap.setUnknownBorrowed at hsize
  split at hsize
  next unknown hmodify =>
    obtain ⟨entry, -, hfound, hcount⟩ := SlotTable.countP_modify isNamed hmodify
    rw [if_pos (isNamed_of_hasName hfound), hblank] at hcount
    simp only [size, h.knownSize, h.unknownSize, Bool.false_eq_true, if_false] at hsize hcount
    omega
  next =>
    dsimp only [size, HeadersMap.placeUnknown] at hsize
    rw [h.knownSize, h.unknownSize, SlotTable.countP_place (by simp [isNamed]) rfl, hblank] at hsize
    simp only [Bool.false_eq_true, if_false] at hsize
    omega

theorem Counted.removeField (h : Counted m) {f : Field}
    (hf : f = .unknown → m.knownSize = 0 ∨ ∀ entry ∈ m.known.slots, entry.key ≠ .unknown) :
    Counted (m.removeField f) := by
  unfold HeadersMap.removeField
  split
  next known hmodify =>
    obtain ⟨entry, hentry, hkey, hcount⟩ := SlotTable.countP_modify isKnown hmodify
    refine ⟨⟨h.shaped.known.modify hmodify, h.shaped.unknown⟩, ?_, h.unknownSize⟩
    have hsize := h.knownSize
    have hblank : isKnown {} = false := rfl
    rw [hblank] at hcount
    by_cases hunknown : f = .unknown
    · subst hunknown
      rw [isKnown_of_vacant hkey] at hcount
      rcases hf rfl with hzero | hfull
      · simp only [Bool.false_eq_true, if_false] at hcount
        dsimp only
        omega
      · simp only [hasKey, decide_eq_true_eq] at hkey
        exact absurd hkey (hfull entry hentry)
    · rw [isKnown_of_hasKey hunknown hkey] at hcount
      simp only [Bool.false_eq_true, if_false, if_true] at hcount
      dsimp only
      omega
  · exact h

theorem Counted.remove (h : Counted m) (name : List Byte) : Counted (m.remove memory name) := by
  unfold HeadersMap.remove
  split
  · split
    next unknown hmodify =>
      obtain ⟨entry, -, hname, hcount⟩ := SlotTable.countP_modify isNamed hmodify
      refine ⟨⟨h.shaped.known, h.shaped.unknown.modify hmodify⟩, h.knownSize, ?_⟩
      have hsize := h.unknownSize
      have hblank : isNamed {} = false := rfl
      rw [hblank, isNamed_of_hasName hname] at hcount
      simp only [Bool.false_eq_true, if_false, if_true] at hcount
      dsimp only
      omega
    · exact h
  next hknown => exact h.removeField fun hf => absurd hf hknown

/-- One operation: the counters stay right. -/
theorem Counted.apply (h : Counted m) {operation : HeadersOperation}
    (hregular : operation.Regular m) : Counted (operation.apply memory m) := by
  cases operation with
  | removeField f => exact h.removeField hregular
  | containsField f => exact h
  | change call =>
      cases call with
      | setView name value =>
          show Counted (m.setView memory name value)
          unfold setView
          split
          · exact h.setUnknown name value
          · exact h.setKnownBorrowed _ _
      | setKnown f value => exact h.setKnownBorrowed f _
      | setKnownBorrowed f value => exact h.setKnownBorrowed f value
      | setUnknown name value => exact h.setUnknown name value
      | setUnknownBorrowed name value => exact h.setUnknownBorrowed hregular value
      | remove name => exact h.remove name
      | clear => exact h.clear

/-! ## Absent headers -/

/-- A field that no slot holds is not stored, and the other way round. -/
theorem stores_field {f : Field} :
    m.stores memory (.field f) = true ↔
      f ≠ .unknown ∧ ∃ entry ∈ m.known.slots, entry.key = f := by
  simp only [stores, present, List.any_append, List.any_map, Bool.or_eq_true, List.any_eq_true,
    List.mem_filter, Function.comp_apply, HeaderKey.same, decide_eq_true_eq, isKnown]
  constructor
  · rintro (⟨entry, ⟨hentry, hknown⟩, rfl⟩ | ⟨entry, -, hfalse⟩)
    · exact ⟨hknown, entry, hentry, rfl⟩
    · cases hfalse
  · rintro ⟨hf, entry, hentry, rfl⟩
    exact .inl ⟨entry, ⟨hentry, hf⟩, rfl⟩

theorem containsField_iff {f : Field} :
    m.containsField f = true ↔ ∃ entry ∈ m.known.slots, entry.key = f := by
  simp [containsField, SlotTable.find?, hasKey]

theorem removeField_absent {f : Field} (hf : f ≠ .unknown)
    (habsent : m.stores memory (.field f) = false) : m.removeField f = m := by
  unfold HeadersMap.removeField
  split
  next known hmodify =>
    obtain ⟨before, entry, after, hslots, -, hkey, -⟩ := SlotTable.modify_eq_some hmodify
    have hstored : m.stores memory (.field f) = true := by
      apply (stores_field).mpr
      exact ⟨hf, entry, by simp [hslots], by simpa [hasKey] using hkey⟩
    rw [habsent] at hstored
    cases hstored
  · rfl

theorem remove_absent {name : List Byte}
    (habsent : m.stores memory (.ofName name) = false) : m.remove memory name = m := by
  unfold HeaderKey.ofName at habsent
  unfold HeadersMap.remove
  split
  next hunknown =>
    rw [if_pos hunknown] at habsent
    split
    next unknown hmodify =>
      obtain ⟨before, entry, after, hslots, -, hname, -⟩ := SlotTable.modify_eq_some hmodify
      simp only [stores, present, List.any_append, Bool.or_eq_false_iff, List.any_eq_false,
        List.mem_map, List.mem_filter] at habsent
      have hdiffers := habsent.2 (.name (entry.name.read memory), entry.value.read memory)
        ⟨entry, ⟨by simp [hslots], isNamed_of_hasName hname⟩, rfl⟩
      simp only [hasName, Bool.and_eq_true] at hname
      exact absurd ((ciEqual_comm _ _).trans hname.2) hdiffers
    · rfl
  next hknown =>
    rw [if_neg hknown] at habsent
    exact removeField_absent hknown habsent

/-- Removing `unknown` blanks a slot that is vacant already. -/
theorem entries_removeField_unknown (memory : List Byte) (m : HeadersMap) :
    (m.removeField .unknown).entries memory = m.entries memory := by
  unfold HeadersMap.removeField
  split
  next known hmodify =>
    obtain ⟨before, entry, after, hslots, -, hkey, hslots'⟩ := SlotTable.modify_eq_some hmodify
    have hvacant : entry.key = .unknown := by simpa [hasKey] using hkey
    simp [entries, hslots, hslots', hvacant]
  · rfl

/-- One operation: what is expected of it, if it is regular. -/
theorem Counted.answers (h : Counted m) {operation : HeadersOperation}
    (hregular : operation.Regular m) : operation.Answers memory m := by
  cases operation with
  | removeField f =>
      intro habsent
      by_cases hf : f = .unknown
      · have hcounted := h.removeField hregular
        subst hf
        have hentries := entries_removeField_unknown memory m
        refine ⟨hentries, ?_⟩
        have hafter : CountsExact memory (m.removeField .unknown) := hcounted.countsExact
        have hbefore : CountsExact memory m := h.countsExact
        rw [hafter.size, hentries, hbefore.size]
      · rw [removeField_absent hf habsent]
        exact ⟨rfl, rfl⟩
  | containsField f =>
      intro hcontains
      have hentry := (containsField_iff).mp hcontains
      apply (stores_field).mpr
      refine ⟨?_, hentry⟩
      rintro rfl
      obtain ⟨entry, hentry, hkey⟩ := hentry
      exact hregular rfl entry hentry hkey
  | change call =>
      cases call with
      | remove name =>
          intro habsent
          rw [remove_absent habsent]
          exact ⟨rfl, rfl⟩
      | setView | setKnown | setKnownBorrowed | setUnknown | setUnknownBorrowed | clear =>
          trivial

/-- An operation that is not regular is answered wrongly or leaves wrong counts. -/
theorem Counted.breaks (h : Counted m) {operation : HeadersOperation}
    (hregular : ¬ operation.Regular m) (hanswers : operation.Answers memory m) :
    ¬ CountsExact memory (operation.apply memory m) := by
  cases operation with
  | removeField f =>
      simp only [HeadersOperation.Regular, not_forall, not_or, ne_eq, not_not] at hregular
      obtain ⟨rfl, hsize, entry, hentry, hkey⟩ := hregular
      have habsent : m.stores memory (.field .unknown) = false := by
        rw [Bool.eq_false_iff]
        intro hstored
        exact (stores_field.mp hstored).1 rfl
      have hsame := (hanswers habsent).2
      unfold HeadersMap.removeField at hsame
      split at hsame
      · simp only [size] at hsame
        omega
      next hmodify =>
        have hnot := SlotTable.modify_eq_none hmodify entry hentry
        simp [hasKey, hkey] at hnot
  | containsField f =>
      simp only [HeadersOperation.Regular, not_forall, ne_eq, not_not] at hregular
      obtain ⟨rfl, entry, hentry, hkey⟩ := hregular
      have hstored := hanswers (containsField_iff.mpr ⟨entry, hentry, hkey⟩)
      exact absurd rfl (stores_field.mp hstored).1
  | change call =>
      cases call with
      | setUnknownBorrowed name value =>
          have hname : name.isNull = true := by simpa [HeadersOperation.Regular] using hregular
          exact h.not_countsExact hname value
      | setView | setKnown | setKnownBorrowed | setUnknown | remove | clear =>
          exact absurd trivial hregular

end Counts

/-- The counts are exact after every operation, and each is answered as it should be,
exactly if every operation is regular. -/
theorem counts_exact_iff (memory : List Byte) (operations : List HeadersOperation) :
    (Always (HeadersOperation.step memory) (CountsExact memory) {} operations ∧
        Along (HeadersOperation.step memory) (HeadersOperation.Answers memory) {} operations) ↔
      Along (HeadersOperation.step memory) (fun m operation => operation.Regular m) {}
        operations := by
  have hkeep : ∀ (m : HeadersMap) operation next, Counted m → operation.Regular m →
      HeadersOperation.step memory m operation = some next → Counted next := by
    intro m operation next hcounted hregular hstep
    cases hstep
    exact hcounted.apply hregular
  apply always_and_along_iff hkeep _ _ _ operations counted_initial
  · intro m hcounted
    exact hcounted.countsExact
  · intro m operation hcounted hregular
    exact hcounted.answers hregular
  · intro m operation hcounted hregular hanswers
    exact ⟨_, rfl, hcounted.breaks hregular hanswers⟩

/-- After `set(field::host, "a")` and `remove(field::unknown)` the map says that it is
empty, and a loop over it visits the header. -/
theorem removed_unknown_counted :
    ¬ (Always (HeadersOperation.step []) (CountsExact []) {}
          [.change (.setKnown .host (bytesOf "a")), .removeField .unknown] ∧
        Along (HeadersOperation.step []) (HeadersOperation.Answers []) {}
          [.change (.setKnown .host (bytesOf "a")), .removeField .unknown]) := by
  rintro ⟨⟨-, hfirst⟩, -⟩
  have hexact := ((hfirst _ rfl).2 _ rfl).size
  revert hexact
  decide +kernel

end HeadersMap

end Http
end Katana
