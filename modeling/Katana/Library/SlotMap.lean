import Katana.Library.SlotTable

/-!
# Slot tables as maps

When there is a test for each key, a slot table represents the map that sends a
key to the value of the one slot passing its test.  Storing over the slot that
is found, storing into a vacant slot and blanking a slot update this map at the
keys equal to the stored one.  The second half walks over the occupied slots, as
an iterator over the inline part and then over the chunks does.
-/

namespace Katana
namespace Library

/-- The tests for two keys pass on a common slot only if the keys are the same. -/
structure KeyTests {κ α : Type*} (test : κ → α → Bool) (same : κ → κ → Bool) : Prop where
  symm : ∀ k q, same k q = same q k
  decides : ∀ k q a, test k a = true → test q a = same k q

theorem pairwise_of_filter_le_one {κ α : Type*} {test : κ → α → Bool} {l : List α}
    (hone : ∀ k, (l.filter (test k)).length ≤ 1) :
    l.Pairwise fun a b => ∀ k, test k a = true → test k b = false := by
  induction l with
  | nil => exact .nil
  | cons a rest ih =>
      refine .cons (fun b hb k ha => ?_) (ih fun k => ?_)
      · by_contra hpass
        rw [Bool.not_eq_false] at hpass
        have hk := hone k
        have hpos := List.length_pos_of_mem (List.mem_filter.mpr ⟨hb, hpass⟩)
        rw [List.filter_cons_of_pos ha, List.length_cons] at hk
        omega
      · exact (((List.sublist_cons_self a rest).filter _).length_le).trans (hone k)

namespace SlotTable

section Represents

variable {κ α β : Type*}

/-- For every key exactly the slots with its value pass the test. -/
def Represents (test : κ → α → Bool) (value : α → β) (spec : κ → Option β)
    (table : SlotTable α) : Prop :=
  ∀ k, (table.slots.filter (test k)).map value = (spec k).toList

variable {test : κ → α → Bool} {same : κ → κ → Bool} {value : α → β} {spec : κ → Option β}
  {table table' : SlotTable α}

theorem Represents.find (h : Represents test value spec table) (k : κ) :
    (table.find? (test k)).map value = spec k := by
  have hk := congrArg List.head? (h k)
  rw [List.head?_map, List.head?_filter] at hk
  rw [find?, hk]
  cases spec k <;> rfl

theorem Represents.absent (h : Represents test value spec table) {k : κ}
    (hnone : ∀ a ∈ table.slots, test k a = false) : spec k = none := by
  have hk := h k
  rw [List.filter_eq_nil_iff.mpr (by simpa using hnone)] at hk
  cases hspec : spec k with
  | none => rfl
  | some v =>
      rw [hspec] at hk
      cases hk

/-- The slot that passes a test is the only one with its key. -/
theorem Represents.split (htests : KeyTests test same) (h : Represents test value spec table)
    {k q : κ} {before after : List α} {a : α} (hslots : table.slots = before ++ a :: after)
    (ha : test k a = true) (hsame : same k q = true) :
    before.filter (test q) = [] ∧ after.filter (test q) = [] := by
  have hq := congrArg List.length (h q)
  have hone : (spec q).toList.length ≤ 1 := by
    cases spec q <;> simp
  have hpass : test q a = true := by rw [htests.decides k q a ha, hsame]
  rw [hslots, List.filter_append, List.filter_cons_of_pos hpass] at hq
  simp only [List.length_map, List.length_append, List.length_cons] at hq
  constructor
  · apply List.length_eq_zero_iff.mp
    omega
  · apply List.length_eq_zero_iff.mp
    omega

/-- The slot with the key gets another value. -/
theorem Represents.modify (htests : KeyTests test same) (h : Represents test value spec table)
    {k : κ} {v : β} {change : α → α} (hkeep : ∀ a, test k a = true → test k (change a) = true)
    (hvalue : ∀ a, value (change a) = v) (hmodify : table.modify (test k) change = some table') :
    Represents test value (fun q => if same k q then some v else spec q) table' := by
  intro q
  obtain ⟨before, a, after, hslots, -, ha, hslots'⟩ := modify_eq_some hmodify
  have hold := htests.decides k q a ha
  have hnew := htests.decides k q (change a) (hkeep a ha)
  rw [hslots', List.filter_append]
  cases hsame : same k q with
  | true =>
      obtain ⟨hbefore, hafter⟩ := h.split htests hslots ha hsame
      rw [hsame] at hnew
      rw [List.filter_cons_of_pos hnew, hbefore, hafter]
      simp [hsame, hvalue]
  | false =>
      rw [hsame] at hold hnew
      have hq := h q
      rw [hslots, List.filter_append, List.filter_cons_of_neg (by simp [hold])] at hq
      rw [List.filter_cons_of_neg (by simp [hnew]), hq]
      simp [hsame]

/-- A vacant slot gets the key. -/
theorem Represents.place (htests : KeyTests test same) (h : Represents test value spec table)
    {k : κ} {entry blank : α} {vacant : α → Bool} (width : ℕ)
    (habsent : ∀ a ∈ table.slots, test k a = false) (hentry : test k entry = true)
    (hblank : ∀ q, test q blank = false) (hvacant : ∀ q a, vacant a = true → test q a = false) :
    Represents test value (fun q => if same k q then some (value entry) else spec q)
      (table.place vacant blank width entry) := by
  intro q
  obtain ⟨before, removed, added, after, hslots, hslots', hremoved, hadded⟩ :=
    place_slots vacant blank width entry table
  have hnone : removed.filter (test q) = [] := by
    rw [List.filter_eq_nil_iff]
    intro a ha
    simp [hvacant q a (hremoved a ha)]
  have hnone' : added.filter (test q) = [] := by
    rw [List.filter_eq_nil_iff]
    intro a ha
    simp [hadded a ha, hblank q]
  have hq := h q
  rw [hslots, List.filter_append, List.filter_append, hnone, List.append_nil] at hq
  rw [hslots', List.filter_append, List.filter_append]
  have hnew := htests.decides k q entry hentry
  cases hsame : same k q with
  | true =>
      have hempty : ∀ a ∈ table.slots, test q a = false := by
        intro a ha
        by_contra hpass
        rw [Bool.not_eq_false] at hpass
        have hother := htests.decides q k a hpass
        rw [habsent a ha, htests.symm, hsame] at hother
        cases hother
      rw [hslots] at hempty
      have hbefore : before.filter (test q) = [] := by
        rw [List.filter_eq_nil_iff]
        intro a ha
        simp [hempty a (by simp [ha])]
      have hafter : after.filter (test q) = [] := by
        rw [List.filter_eq_nil_iff]
        intro a ha
        simp [hempty a (by simp [ha])]
      rw [hsame] at hnew
      rw [hbefore, hafter, List.filter_cons_of_pos hnew, hnone']
      simp [hsame]
  | false =>
      rw [hsame] at hnew
      rw [List.filter_cons_of_neg (by simp [hnew]), hnone', List.append_nil, hq]
      simp [hsame]

/-- The slot with the key becomes blank. -/
theorem Represents.erase (htests : KeyTests test same) (h : Represents test value spec table)
    {k : κ} {blank : α} (hblank : ∀ q, test q blank = false)
    (hmodify : table.modify (test k) (fun _ => blank) = some table') :
    Represents test value (fun q => if same k q then none else spec q) table' := by
  intro q
  obtain ⟨before, a, after, hslots, -, ha, hslots'⟩ := modify_eq_some hmodify
  have hold := htests.decides k q a ha
  rw [hslots', List.filter_append, List.filter_cons_of_neg (by simp [hblank q])]
  cases hsame : same k q with
  | true =>
      obtain ⟨hbefore, hafter⟩ := h.split htests hslots ha hsame
      rw [hbefore, hafter]
      simp [hsame]
  | false =>
      have hq := h q
      rw [hslots, List.filter_append, List.filter_cons_of_neg (by simp [hold, hsame])] at hq
      rw [hq]
      simp [hsame]

/-- Erasing a key that is not there. -/
theorem Represents.erase_absent (htests : KeyTests test same)
    (h : Represents test value spec table) {k : κ}
    (habsent : ∀ a ∈ table.slots, test k a = false) :
    Represents test value (fun q => if same k q then none else spec q) table := by
  intro q
  cases hsame : same k q with
  | false => simpa [hsame] using h q
  | true =>
      have hempty : table.slots.filter (test q) = [] := by
        rw [List.filter_eq_nil_iff]
        intro a ha hpass
        have hother := htests.decides q k a hpass
        rw [habsent a ha, htests.symm, hsame] at hother
        cases hother
      rw [hempty]
      simp [hsame]

theorem represents_blank (hblank : ∀ a ∈ table.slots, ∀ q, test q a = false) :
    Represents test value (fun _ => none) table := by
  intro q
  rw [List.filter_eq_nil_iff.mpr fun a ha => by simp [hblank a ha q]]
  rfl

end Represents

/-! ## Shape -/

section Shape

variable {α : Type*}

/-- The inline part and the chunks have their widths. -/
structure Shaped (inlineWidth width : ℕ) (table : SlotTable α) : Prop where
  inlineSlots : table.inlineSlots.length = inlineWidth
  chunks : ∀ chunk ∈ table.chunks, chunk.length = width

theorem modifyFirst_length {test : α → Bool} {change : α → α} {slots slots' : List α}
    (h : modifyFirst test change slots = some slots') : slots'.length = slots.length := by
  obtain ⟨before, a, after, rfl, -, -, rfl⟩ := modifyFirst_eq_some h
  simp

theorem modifyFirstChunk_lengths {test : α → Bool} {change : α → α}
    {chunks chunks' : List (List α)} (h : modifyFirstChunk test change chunks = some chunks') :
    chunks'.map List.length = chunks.map List.length := by
  induction chunks generalizing chunks' with
  | nil => cases h
  | cons chunk rest ih =>
      rw [modifyFirstChunk] at h
      cases hfirst : modifyFirst test change chunk with
      | some changed =>
          rw [hfirst] at h
          cases h
          simp [modifyFirst_length hfirst]
      | none =>
          rw [hfirst] at h
          obtain ⟨rest', hrest, rfl⟩ := Option.map_eq_some_iff.mp h
          simp [ih hrest]

variable {inlineWidth width : ℕ} {table table' : SlotTable α}

theorem Shaped.modify (h : table.Shaped inlineWidth width) {test : α → Bool} {change : α → α}
    (hmodify : table.modify test change = some table') : table'.Shaped inlineWidth width := by
  unfold SlotTable.modify at hmodify
  split at hmodify
  next changed hfirst =>
    cases hmodify
    exact ⟨(modifyFirst_length hfirst).trans h.inlineSlots, h.chunks⟩
  next =>
    obtain ⟨chunks, hchunks, rfl⟩ := Option.map_eq_some_iff.mp hmodify
    refine ⟨h.inlineSlots, fun chunk hchunk => ?_⟩
    have hmem : chunk.length ∈ table.chunks.map List.length := by
      rw [← modifyFirstChunk_lengths hchunks]
      exact List.mem_map_of_mem hchunk
    obtain ⟨old, hold, hlength⟩ := List.mem_map.mp hmem
    rw [← hlength]
    exact h.chunks old hold

theorem Shaped.place (h : table.Shaped inlineWidth width) (hwidth : 0 < width)
    (vacant : α → Bool) (blank entry : α) :
    (table.place vacant blank width entry).Shaped inlineWidth width := by
  unfold SlotTable.place
  split
  next hmodify => exact h.modify hmodify
  next =>
    refine ⟨h.inlineSlots, fun chunk hchunk => ?_⟩
    rcases List.mem_cons.mp hchunk with rfl | hchunk
    · rw [List.length_cons, List.length_replicate]
      omega
    · exact h.chunks chunk hchunk

/-- Every slot becomes blank. -/
def clear (blank : α) (table : SlotTable α) : SlotTable α where
  inlineSlots := table.inlineSlots.map fun _ => blank
  chunks := table.chunks.map (List.map fun _ => blank)

theorem Shaped.clear (h : table.Shaped inlineWidth width) (blank : α) :
    (table.clear blank).Shaped inlineWidth width := by
  refine ⟨by rw [SlotTable.clear, List.length_map, h.inlineSlots], fun chunk hchunk => ?_⟩
  obtain ⟨old, hold, rfl⟩ := List.mem_map.mp hchunk
  rw [List.length_map, h.chunks old hold]

theorem mem_slots_clear {blank a : α} (h : a ∈ (table.clear blank).slots) : a = blank := by
  simp only [slots, SlotTable.clear, List.mem_append, List.mem_map, List.mem_flatten] at h
  rcases h with ⟨-, -, rfl⟩ | ⟨chunk, ⟨old, -, rfl⟩, ha⟩
  · rfl
  · obtain ⟨-, -, rfl⟩ := List.mem_map.mp ha
    rfl

end Shape

/-! ## Counting the occupied slots -/

section Count

variable {α : Type*} {occupied : α → Bool} {table table' : SlotTable α}

/-- Changing a slot counts it again. -/
theorem countP_modify (occupied : α → Bool) {test : α → Bool} {change : α → α}
    (hmodify : table.modify test change = some table') :
    ∃ a ∈ table.slots, test a = true ∧
      table'.slots.countP occupied + (if occupied a then 1 else 0) =
        table.slots.countP occupied + if occupied (change a) then 1 else 0 := by
  obtain ⟨before, a, after, hslots, -, ha, hslots'⟩ := modify_eq_some hmodify
  refine ⟨a, by simp [hslots], ha, ?_⟩
  rw [hslots, hslots', List.countP_append, List.countP_append, List.countP_cons,
    List.countP_cons]
  omega

/-- Storing an entry counts it, wherever it goes. -/
theorem countP_place {vacant : α → Bool} {blank : α}
    (hvacant : ∀ a, vacant a = true → occupied a = false) (hblank : occupied blank = false)
    (width : ℕ) (entry : α) :
    (table.place vacant blank width entry).slots.countP occupied =
      table.slots.countP occupied + if occupied entry then 1 else 0 := by
  obtain ⟨before, removed, added, after, hslots, hslots', hremoved, hadded⟩ :=
    place_slots vacant blank width entry table
  have hnone : removed.countP occupied = 0 := by
    apply List.countP_eq_zero.mpr
    intro a ha
    simp [hvacant a (hremoved a ha)]
  have hnone' : added.countP occupied = 0 := by
    apply List.countP_eq_zero.mpr
    intro a ha
    simp [hadded a ha, hblank]
  simp only [hslots, hslots', List.countP_append, List.countP_cons, hnone, hnone']
  omega

theorem countP_clear {blank : α} (hblank : occupied blank = false) :
    (table.clear blank).slots.countP occupied = 0 := by
  apply List.countP_eq_zero.mpr
  intro a ha
  simp [mem_slots_clear ha, hblank]

end Count

end SlotTable

/-! ## Walking over the occupied slots -/

section Walk

variable {α : Type*} (occupied : α → Bool)

/-- The first occupied slot at or behind `index`, else the end. -/
def nextOccupied (slots : List α) (index : ℕ) : ℕ :=
  index + ((slots.drop index).takeWhile fun a => !occupied a).length

/-- The same over chunks: a chunk and an index into it, or no chunk. -/
def nextInChunks (width : ℕ) : List (List α) → ℕ → List (List α) × ℕ
  | [], index => ([], index)
  | chunk :: rest, index =>
      if nextOccupied occupied chunk index < width then
        (chunk :: rest, nextOccupied occupied chunk index)
      else nextInChunks width rest 0

/-- The slots that a walk over chunks has still to visit. -/
def slotsAhead : List (List α) → ℕ → List α
  | [], _ => []
  | chunk :: rest, index => chunk.drop index ++ rest.flatten

variable {occupied} {slots : List α} {index : ℕ}

@[simp] theorem slotsAhead_zero (chunks : List (List α)) : slotsAhead chunks 0 = chunks.flatten := by
  cases chunks <;> rfl

theorem nextOccupied_le (hindex : index ≤ slots.length) :
    nextOccupied occupied slots index ≤ slots.length := by
  have hle := (List.takeWhile_prefix (l := slots.drop index) fun a => !occupied a).length_le
  rw [List.length_drop] at hle
  unfold nextOccupied
  omega

theorem drop_nextOccupied :
    slots.drop (nextOccupied occupied slots index) =
      (slots.drop index).dropWhile fun a => !occupied a := by
  have hsplit := List.takeWhile_append_dropWhile (p := fun a => !occupied a)
    (l := slots.drop index)
  have hcut := congrArg (List.drop ((slots.drop index).takeWhile fun a => !occupied a).length)
    hsplit
  rw [List.drop_left] at hcut
  rw [nextOccupied, ← List.drop_drop, hcut]

theorem filter_nextOccupied :
    (slots.drop (nextOccupied occupied slots index)).filter occupied =
      (slots.drop index).filter occupied := by
  have hnone : ((slots.drop index).takeWhile fun a => !occupied a).filter occupied = [] := by
    rw [List.filter_eq_nil_iff]
    intro a ha
    simpa using List.mem_takeWhile_imp ha
  rw [drop_nextOccupied]
  conv_rhs => rw [← List.takeWhile_append_dropWhile (p := fun a => !occupied a)
    (l := slots.drop index), List.filter_append, hnone, List.nil_append]

/-- The slot reached is occupied, and it is the next one to visit. -/
theorem nextOccupied_lt (h : nextOccupied occupied slots index < slots.length) :
    ∃ a, slots[nextOccupied occupied slots index]? = some a ∧
      (slots.drop index).filter occupied =
        a :: (slots.drop (nextOccupied occupied slots index + 1)).filter occupied := by
  have hdrop := List.drop_eq_getElem_cons h
  have hwhile : (slots.drop index).dropWhile (fun a => !occupied a) = _ :=
    (drop_nextOccupied).symm.trans hdrop
  have hfirst := List.head?_dropWhile_not (fun a => !occupied a) (slots.drop index)
  rw [hwhile, List.head?_cons] at hfirst
  refine ⟨_, List.getElem?_eq_getElem h, ?_⟩
  rw [← filter_nextOccupied, hdrop, List.filter_cons_of_pos (by simpa using hfirst)]

theorem filter_of_nextOccupied_ge (h : slots.length ≤ nextOccupied occupied slots index) :
    (slots.drop index).filter occupied = [] := by
  rw [← filter_nextOccupied, List.drop_eq_nil_of_le h, List.filter_nil]

/-- The walk ends behind the last chunk, or stands at the next slot to visit. -/
theorem nextInChunks_spec (occupied : α → Bool) {width : ℕ} {chunks : List (List α)}
    (hwidth : ∀ chunk ∈ chunks, chunk.length = width) (hzero : chunks = [] → index = 0) :
    (nextInChunks occupied width chunks index = ([], 0) ∧
        (slotsAhead chunks index).filter occupied = []) ∨
      ∃ chunk rest next a, nextInChunks occupied width chunks index = (chunk :: rest, next) ∧
        next < width ∧ chunk[next]? = some a ∧
        (∀ chunk' ∈ chunk :: rest, chunk'.length = width) ∧
        (slotsAhead chunks index).filter occupied =
          a :: (slotsAhead (chunk :: rest) (next + 1)).filter occupied := by
  induction chunks generalizing index with
  | nil =>
      left
      rw [nextInChunks, hzero rfl]
      exact ⟨rfl, rfl⟩
  | cons chunk rest ih =>
      have hchunk := hwidth chunk (by simp)
      rw [nextInChunks, slotsAhead, List.filter_append]
      by_cases hnext : nextOccupied occupied chunk index < width
      · right
        rw [if_pos hnext]
        rw [← hchunk] at hnext
        obtain ⟨a, ha, hahead⟩ := nextOccupied_lt hnext
        refine ⟨chunk, rest, _, a, rfl, hchunk ▸ hnext, ha, hwidth, ?_⟩
        rw [hahead, slotsAhead, List.filter_append, List.cons_append]
      · rw [if_neg hnext, filter_of_nextOccupied_ge (by omega), List.nil_append]
        rw [← slotsAhead_zero]
        exact ih (fun c hc => hwidth c (List.mem_cons_of_mem chunk hc)) fun _ => rfl

end Walk

end Library
end Katana
