import Mathlib

/-!
# Slot tables

A slot table keeps its entries in a fixed inline part and in overflow chunks of
a fixed width.  An entry is stored over the first slot that already holds its
key, else in the first vacant slot, else in a new chunk put in front of the
others.  Read through `find?`, such a table is a map: storing a key changes what
is found for that key and for no other.
-/

namespace Katana
namespace Library

variable {α : Type*}

/-- Change the first element that satisfies the test. -/
def modifyFirst (test : α → Bool) (change : α → α) : List α → Option (List α)
  | [] => none
  | a :: rest =>
      if test a then some (change a :: rest)
      else (modifyFirst test change rest).map (a :: ·)

def modifyFirstChunk (test : α → Bool) (change : α → α) :
    List (List α) → Option (List (List α))
  | [] => none
  | chunk :: rest =>
      match modifyFirst test change chunk with
      | some chunk => some (chunk :: rest)
      | none => (modifyFirstChunk test change rest).map (chunk :: ·)

theorem modifyFirst_eq_none_iff {test : α → Bool} {change : α → α} {slots : List α} :
    modifyFirst test change slots = none ↔ ∀ a ∈ slots, test a = false := by
  induction slots with
  | nil => simp [modifyFirst]
  | cons a rest ih => by_cases ha : test a <;> simp [modifyFirst, ha, ih]

theorem modifyFirst_eq_some {test : α → Bool} {change : α → α} {slots slots' : List α}
    (h : modifyFirst test change slots = some slots') :
    ∃ before a after, slots = before ++ a :: after ∧
      (∀ b ∈ before, test b = false) ∧ test a = true ∧
      slots' = before ++ change a :: after := by
  induction slots generalizing slots' with
  | nil => simp [modifyFirst] at h
  | cons a rest ih =>
      by_cases ha : test a
      · simp only [modifyFirst, ha, if_true, Option.some.injEq] at h
        exact ⟨[], a, rest, rfl, by simp, ha, h.symm⟩
      · simp only [modifyFirst, ha, Bool.false_eq_true, if_false,
          Option.map_eq_some_iff] at h
        obtain ⟨rest', hrest, rfl⟩ := h
        obtain ⟨before, b, after, rfl, hbefore, hb, rfl⟩ := ih hrest
        refine ⟨a :: before, b, after, rfl, ?_, hb, rfl⟩
        simpa [ha] using hbefore

theorem modifyFirst_append (test : α → Bool) (change : α → α) (first rest : List α) :
    modifyFirst test change (first ++ rest) =
      match modifyFirst test change first with
      | some first => some (first ++ rest)
      | none => (modifyFirst test change rest).map (first ++ ·) := by
  induction first with
  | nil => simp [modifyFirst]
  | cons a first ih =>
      by_cases ha : test a
      · simp [modifyFirst, ha]
      · simp only [List.cons_append, modifyFirst, ha, Bool.false_eq_true, if_false, ih]
        cases modifyFirst test change first with
        | some first' => rfl
        | none => cases modifyFirst test change rest <;> rfl

theorem modifyFirstChunk_flatten (test : α → Bool) (change : α → α)
    (chunks : List (List α)) :
    (modifyFirstChunk test change chunks).map List.flatten =
      modifyFirst test change chunks.flatten := by
  induction chunks with
  | nil => simp [modifyFirst, modifyFirstChunk]
  | cons chunk rest ih =>
      rw [List.flatten_cons, modifyFirst_append, ← ih, modifyFirstChunk]
      cases modifyFirst test change chunk with
      | some chunk' => simp
      | none => cases modifyFirstChunk test change rest <;> simp

theorem modifyFirst_congr {test test' : α → Bool} (change : α → α) {slots : List α}
    (h : ∀ a ∈ slots, test a = test' a) :
    modifyFirst test change slots = modifyFirst test' change slots := by
  induction slots with
  | nil => rfl
  | cons a rest ih =>
      rw [modifyFirst, modifyFirst, h a (by simp), ih fun b hb => h b (by simp [hb])]

theorem modifyFirstChunk_congr {test test' : α → Bool} (change : α → α)
    {chunks : List (List α)} (h : ∀ a ∈ chunks.flatten, test a = test' a) :
    modifyFirstChunk test change chunks = modifyFirstChunk test' change chunks := by
  induction chunks with
  | nil => rfl
  | cons chunk rest ih =>
      simp only [List.flatten_cons, List.mem_append] at h
      rw [modifyFirstChunk, modifyFirstChunk,
        modifyFirst_congr change fun a ha => h a (.inl ha),
        ih fun a ha => h a (.inr ha)]

structure SlotTable (α : Type*) where
  inlineSlots : List α
  chunks : List (List α)

namespace SlotTable

/-- The slots in the order in which a search visits them. -/
def slots (table : SlotTable α) : List α :=
  table.inlineSlots ++ table.chunks.flatten

def find? (test : α → Bool) (table : SlotTable α) : Option α :=
  table.slots.find? test

def modify (test : α → Bool) (change : α → α) (table : SlotTable α) :
    Option (SlotTable α) :=
  match modifyFirst test change table.inlineSlots with
  | some inlineSlots => some { table with inlineSlots }
  | none =>
      (modifyFirstChunk test change table.chunks).map
        fun chunks => { table with chunks }

/-- A vacant slot, made by a new chunk when there is none, receives `entry`. -/
def place (vacant : α → Bool) (blank : α) (width : ℕ) (entry : α)
    (table : SlotTable α) : SlotTable α :=
  match table.modify vacant (fun _ => entry) with
  | some table => table
  | none =>
      { table with chunks := (entry :: List.replicate (width - 1) blank) :: table.chunks }

theorem modify_slots (test : α → Bool) (change : α → α) (table : SlotTable α) :
    (table.modify test change).map slots = modifyFirst test change table.slots := by
  unfold modify slots
  rw [modifyFirst_append, ← modifyFirstChunk_flatten]
  cases modifyFirst test change table.inlineSlots with
  | some inlineSlots => rfl
  | none => cases modifyFirstChunk test change table.chunks <;> rfl

theorem modify_congr {test test' : α → Bool} (change : α → α) {table : SlotTable α}
    (h : ∀ a ∈ table.slots, test a = test' a) :
    table.modify test change = table.modify test' change := by
  simp only [slots, List.mem_append] at h
  unfold modify
  rw [modifyFirst_congr change fun a ha => h a (.inl ha),
    modifyFirstChunk_congr change fun a ha => h a (.inr ha)]

theorem find?_congr {test test' : α → Bool} {table : SlotTable α}
    (h : ∀ a ∈ table.slots, test a = test' a) : table.find? test = table.find? test' := by
  unfold find?
  generalize table.slots = slots at h
  induction slots with
  | nil => rfl
  | cons a rest ih =>
      rw [List.find?_cons, List.find?_cons, h a (by simp), ih fun b hb => h b (by simp [hb])]

theorem modify_eq_some {test : α → Bool} {change : α → α} {table table' : SlotTable α}
    (h : table.modify test change = some table') :
    ∃ before a after, table.slots = before ++ a :: after ∧
      (∀ b ∈ before, test b = false) ∧ test a = true ∧
      table'.slots = before ++ change a :: after := by
  apply modifyFirst_eq_some
  rw [← modify_slots, h, Option.map_some]

theorem modify_eq_none {test : α → Bool} {change : α → α} {table : SlotTable α}
    (h : table.modify test change = none) : ∀ a ∈ table.slots, test a = false := by
  apply (modifyFirst_eq_none_iff).mp
  rw [← modify_slots test change, h, Option.map_none]

/-- Slots of a table after `place`: one slot more is occupied by `entry`. -/
theorem place_slots (vacant : α → Bool) (blank : α) (width : ℕ) (entry : α)
    (table : SlotTable α) :
    ∃ before removed added after, table.slots = before ++ removed ++ after ∧
      (table.place vacant blank width entry).slots =
        before ++ entry :: added ++ after ∧
      (∀ a ∈ removed, vacant a = true) ∧ ∀ a ∈ added, a = blank := by
  unfold place
  cases hmodify : table.modify vacant (fun _ => entry) with
  | some table' =>
      obtain ⟨before, a, after, hslots, -, ha, hslots'⟩ := modify_eq_some hmodify
      exact ⟨before, [a], [], after, by simpa using hslots, by simpa using hslots',
        by simpa using ha, by simp⟩
  | none =>
      refine ⟨table.inlineSlots, [], List.replicate (width - 1) blank,
        table.chunks.flatten, by simp [slots], by simp [slots], by simp, ?_⟩
      intro a ha
      exact List.eq_of_mem_replicate ha

/-- What holds of every slot, of the entry and of a blank slot still does after
the entry has been stored. -/
theorem forall_place {P : α → Prop} {vacant : α → Bool} {blank entry : α} {width : ℕ}
    {table : SlotTable α} (htable : ∀ a ∈ table.slots, P a) (hentry : P entry)
    (hblank : P blank) : ∀ a ∈ (table.place vacant blank width entry).slots, P a := by
  obtain ⟨before, removed, added, after, hslots, hslots', -, hadded⟩ :=
    place_slots vacant blank width entry table
  rw [hslots] at htable
  rw [hslots']
  intro a ha
  simp only [List.mem_append, List.mem_cons] at ha htable
  rcases ha with (ha | rfl | ha) | ha
  · exact htable a (.inl (.inl ha))
  · exact hentry
  · rw [hadded a ha]
    exact hblank
  · exact htable a (.inr ha)

theorem forall_modify {P : α → Prop} {test : α → Bool} {change : α → α}
    {table table' : SlotTable α} (htable : ∀ a ∈ table.slots, P a)
    (hchange : ∀ a ∈ table.slots, P (change a))
    (h : table.modify test change = some table') : ∀ a ∈ table'.slots, P a := by
  obtain ⟨before, b, after, hslots, -, -, hslots'⟩ := modify_eq_some h
  rw [hslots] at htable hchange
  rw [hslots']
  intro a ha
  simp only [List.mem_append, List.mem_cons] at ha htable
  rcases ha with ha | rfl | ha
  · exact htable a (.inl ha)
  · exact hchange b (by simp)
  · exact htable a (.inr (.inr ha))

/-- A key not in the table is found once an entry with it is placed. -/
theorem find?_place_self (test vacant : α → Bool) (blank entry : α) (width : ℕ)
    {table : SlotTable α} (hentry : test entry = true)
    (habsent : ∀ a ∈ table.slots, test a = false) :
    (table.place vacant blank width entry).find? test = some entry := by
  obtain ⟨before, removed, added, after, hslots, hslots', -, -⟩ :=
    place_slots vacant blank width entry table
  have hbefore : before.find? test = none := by
    rw [List.find?_eq_none]
    intro a ha
    simp [habsent a (by rw [hslots]; simp [ha])]
  rw [find?, hslots', List.append_assoc, List.find?_append, hbefore]
  simp [hentry]

theorem find?_place_other {test vacant : α → Bool} {blank entry : α} (width : ℕ)
    (table : SlotTable α) (hentry : test entry = false) (hblank : test blank = false)
    (hvacant : ∀ a, vacant a = true → test a = false) :
    (table.place vacant blank width entry).find? test = table.find? test := by
  obtain ⟨before, removed, added, after, hslots, hslots', hremoved, hadded⟩ :=
    place_slots vacant blank width entry table
  have hnone : removed.find? test = none := by
    rw [List.find?_eq_none]
    intro a ha
    simp [hvacant a (hremoved a ha)]
  have hnone' : (entry :: added).find? test = none := by
    rw [List.find?_eq_none]
    intro a ha
    rcases List.mem_cons.mp ha with rfl | ha
    · simp [hentry]
    · simp [hadded a ha, hblank]
  rw [find?, find?, hslots, hslots', List.find?_append, List.find?_append,
    List.find?_append, List.find?_append, hnone, hnone']

theorem find?_modify_self {test : α → Bool} {change : α → α} {table table' : SlotTable α}
    (hchange : ∀ a, test a = true → test (change a) = true)
    (h : table.modify test change = some table') :
    ∃ a, table.find? test = some a ∧ table'.find? test = some (change a) := by
  obtain ⟨before, a, after, hslots, hbefore, ha, hslots'⟩ := modify_eq_some h
  have hnone : before.find? test = none := by
    rw [List.find?_eq_none]
    intro b hb
    simp [hbefore b hb]
  refine ⟨a, ?_, ?_⟩
  · rw [find?, hslots, List.find?_append, hnone]
    simp [ha]
  · rw [find?, hslots', List.find?_append, hnone]
    simp [hchange a ha]

theorem find?_modify_other {test : α → Bool} (other : α → Bool) {change : α → α}
    {table table' : SlotTable α} (hdisjoint : ∀ a, test a = true → other a = false)
    (hchange : ∀ a, test a = true → other (change a) = false)
    (h : table.modify test change = some table') :
    table'.find? other = table.find? other := by
  obtain ⟨before, a, after, hslots, -, ha, hslots'⟩ := modify_eq_some h
  rw [find?, find?, hslots, hslots', List.find?_append, List.find?_append]
  simp [hdisjoint a ha, hchange a ha]

end SlotTable

end Library
end Katana
