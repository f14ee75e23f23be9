import Katana.Http.HeadersMap
import Katana.Library.Loop
import Katana.Library.SlotMap

/-!
# Iterating over the header map

The iterator goes through the inline slots and then the chunks of the known
headers, and then through those of the others, and it stands at occupied slots
only.  A chunk pointer is the list of chunks from that chunk on; the null
pointer is the empty list, so two pointers into one list are equal if the lists
have the same length.
-/

namespace Katana
namespace Http

open Library

namespace HeadersMap

/-! ## Removing headers -/

def removeField (f : Field) (m : HeadersMap) : HeadersMap :=
  match m.known.modify (hasKey f) fun _ => {} with
  | some known => { m with known, knownSize := m.knownSize - 1 }
  | none => m

/-- `remove` by name. -/
def remove (memory name : List Byte) (m : HeadersMap) : HeadersMap :=
  if stringToField name = .unknown then
    match m.unknown.modify (hasName memory name) fun _ => {} with
    | some unknown => { m with unknown, unknownSize := m.unknownSize - 1 }
    | none => m
  else m.removeField (stringToField name)

def clear (m : HeadersMap) : HeadersMap where
  known := m.known.clear {}
  knownSize := 0
  unknown := m.unknown.clear {}
  unknownSize := 0

/-- `contains` by name. -/
def contains (memory name : List Byte) (m : HeadersMap) : Bool :=
  if stringToField name = .unknown then (m.unknown.find? (hasName memory name)).isSome
  else m.containsField (stringToField name)

def isKnown (entry : KnownEntry) : Bool :=
  entry.key ≠ .unknown

def isNamed (entry : UnknownEntry) : Bool :=
  !isVacant entry

end HeadersMap

/-! ## The iterator -/

structure HeadersIterator where
  index : ℕ := 0
  phase : ℕ := 0
  knownChunk : List (List KnownEntry) := []
  unknownChunk : List (List UnknownEntry) := []

namespace HeadersIterator

/-- The last loop of `advance`, in phase 3. -/
def advanceUnknownChunks (it : HeadersIterator) : HeadersIterator :=
  let (chunks, index) := nextInChunks HeadersMap.isNamed UNKNOWN_HEADERS_CHUNK_SIZE
    it.unknownChunk it.index
  if chunks = [] then { it with unknownChunk := [], index, phase := 4 }
  else { it with unknownChunk := chunks, index }

/-- Phase 2. -/
def advanceUnknownInline (m : HeadersMap) (it : HeadersIterator) : HeadersIterator :=
  let index := nextOccupied HeadersMap.isNamed m.unknown.inlineSlots it.index
  if index < UNKNOWN_HEADERS_INLINE_SIZE then { it with index }
  else
    advanceUnknownChunks { it with phase := 3, index := 0, unknownChunk := m.unknown.chunks }

/-- Phase 1. -/
def advanceKnownChunks (m : HeadersMap) (it : HeadersIterator) : HeadersIterator :=
  let (chunks, index) := nextInChunks HeadersMap.isKnown KNOWN_HEADERS_CHUNK_SIZE
    it.knownChunk it.index
  if chunks = [] then
    advanceUnknownInline m { it with knownChunk := [], phase := 2, index := 0 }
  else { it with knownChunk := chunks, index }

/-- Phase 0. -/
def advanceKnownInline (m : HeadersMap) (it : HeadersIterator) : HeadersIterator :=
  let index := nextOccupied HeadersMap.isKnown m.known.inlineSlots it.index
  if index < KNOWN_HEADERS_INLINE_SIZE then { it with index }
  else advanceKnownChunks m { it with phase := 1, index := 0, knownChunk := m.known.chunks }

def advance (m : HeadersMap) (it : HeadersIterator) : HeadersIterator :=
  match it.phase with
  | 0 => it.advanceKnownInline m
  | 1 => it.advanceKnownChunks m
  | 2 => it.advanceUnknownInline m
  | _ => it.advanceUnknownChunks

/-- `operator++`. -/
def next (m : HeadersMap) (it : HeadersIterator) : HeadersIterator :=
  { it with index := it.index + 1 }.advance m

/-- `operator!=`. -/
def differs (it other : HeadersIterator) : Bool :=
  it.phase ≠ other.phase || it.index ≠ other.index ||
    it.knownChunk.length ≠ other.knownChunk.length ||
    it.unknownChunk.length ≠ other.unknownChunk.length

def knownPair (memory : List Byte) (entry : KnownEntry) : List Byte × List Byte :=
  (fieldToString entry.key, entry.value.read memory)

def unknownPair (memory : List Byte) (entry : UnknownEntry) : List Byte × List Byte :=
  (entry.name.read memory, entry.value.read memory)

/-- `operator*`. -/
def value (memory : List Byte) (m : HeadersMap) (it : HeadersIterator) :
    List Byte × List Byte :=
  match it.phase with
  | 0 => knownPair memory (m.known.inlineSlots.getD it.index {})
  | 1 => knownPair memory ((it.knownChunk.headD []).getD it.index {})
  | 2 => unknownPair memory (m.unknown.inlineSlots.getD it.index {})
  | _ => unknownPair memory ((it.unknownChunk.headD []).getD it.index {})

end HeadersIterator

namespace HeadersMap

def begin (m : HeadersMap) : HeadersIterator :=
  ({} : HeadersIterator).advance m

def endOf (_m : HeadersMap) : HeadersIterator :=
  { phase := 4 }

/-- One pass of a loop over the headers, which notes what it is given. -/
def visitPass (memory : List Byte) (m : HeadersMap)
    (s : HeadersIterator × List (List Byte × List Byte)) :
    Pass (HeadersIterator × List (List Byte × List Byte)) (List (List Byte × List Byte)) :=
  if s.1.differs m.endOf then .again (s.1.next m, s.2 ++ [s.1.value memory m])
  else .done s.2

/-- The tables have the widths of the arrays of the source. -/
structure Shaped (m : HeadersMap) : Prop where
  known : m.known.Shaped KNOWN_HEADERS_INLINE_SIZE KNOWN_HEADERS_CHUNK_SIZE
  unknown : m.unknown.Shaped UNKNOWN_HEADERS_INLINE_SIZE UNKNOWN_HEADERS_CHUNK_SIZE

/-- From here on the loop visits `rest`. -/
def VisitsFrom (memory : List Byte) (m : HeadersMap) (it : HeadersIterator)
    (rest : List (List Byte × List Byte)) : Prop :=
  ∀ visited, EndsWith (visitPass memory m) (it, visited) (visited ++ rest)

section Visits

variable {memory : List Byte} {m : HeadersMap}

theorem visitsFrom_end : m.VisitsFrom memory m.endOf [] := by
  intro visited
  apply EndsWith.of_done
  rw [List.append_nil]
  rfl

/-- In front of the last phase the loop takes one header and goes on. -/
theorem VisitsFrom.cons {it : HeadersIterator} {pair : List Byte × List Byte}
    {rest : List (List Byte × List Byte)} (hphase : it.phase ≠ 4)
    (hvalue : it.value memory m = pair) (hnext : m.VisitsFrom memory (it.next m) rest) :
    m.VisitsFrom memory it (pair :: rest) := by
  intro visited
  have hdiffers : it.differs m.endOf = true := by
    simp [HeadersIterator.differs, endOf, hphase]
  have hpass : visitPass memory m (it, visited) = .again (it.next m, visited ++ [pair]) := by
    rw [visitPass, if_pos hdiffers, hvalue]
  have hrest := hnext (visited ++ [pair])
  rw [List.append_assoc] at hrest
  exact .of_passes (.head hpass (.refl _)) hrest

theorem visitsFrom_unknownChunks {chunks : List (List UnknownEntry)} {index : ℕ}
    (hwidth : ∀ chunk ∈ chunks, chunk.length = UNKNOWN_HEADERS_CHUNK_SIZE)
    (hzero : chunks = [] → index = 0) :
    m.VisitsFrom memory
      (HeadersIterator.advanceUnknownChunks
        { index, phase := 3, knownChunk := [], unknownChunk := chunks })
      (((slotsAhead chunks index).filter isNamed).map (HeadersIterator.unknownPair memory)) := by
  generalize hahead : (slotsAhead chunks index).filter isNamed = ahead
  induction ahead generalizing chunks index with
  | nil =>
      rcases nextInChunks_spec isNamed hwidth hzero with
        ⟨hend, -⟩ | ⟨chunk, rest, next, a, -, -, -, -, hcons⟩
      · rw [HeadersIterator.advanceUnknownChunks, hend]
        exact visitsFrom_end
      · rw [hahead] at hcons
        cases hcons
  | cons entry ahead ih =>
      rcases nextInChunks_spec isNamed hwidth hzero with
        ⟨-, hnone⟩ | ⟨chunk, rest, next, a, hnext, hlt, ha, hwidth', hcons⟩
      · rw [hahead] at hnone
        cases hnone
      · rw [hahead] at hcons
        injection hcons with hentry htail
        rw [HeadersIterator.advanceUnknownChunks, hnext]
        dsimp only
        rw [if_neg (List.cons_ne_nil chunk rest), List.map_cons]
        refine .cons (by simp) ?_ (ih hwidth' (by simp) htail.symm)
        simp [HeadersIterator.value, ha, hentry]

theorem visitsFrom_unknownInline (hshape : m.Shaped) {index : ℕ}
    (hindex : index ≤ UNKNOWN_HEADERS_INLINE_SIZE) :
    m.VisitsFrom memory
      (HeadersIterator.advanceUnknownInline m
        { index, phase := 2, knownChunk := [], unknownChunk := [] })
      ((((m.unknown.inlineSlots.drop index) ++ m.unknown.chunks.flatten).filter isNamed).map
        (HeadersIterator.unknownPair memory)) := by
  have hlength := hshape.unknown.inlineSlots
  generalize hahead : (m.unknown.inlineSlots.drop index).filter isNamed = ahead
  induction ahead generalizing index with
  | nil =>
      have hstop : ¬ nextOccupied isNamed m.unknown.inlineSlots index <
          UNKNOWN_HEADERS_INLINE_SIZE := by
        rw [← hlength]
        intro hlt
        obtain ⟨a, -, hcons⟩ := nextOccupied_lt hlt
        rw [hahead] at hcons
        cases hcons
      rw [HeadersIterator.advanceUnknownInline]
      dsimp only
      rw [if_neg hstop, List.filter_append, hahead, List.nil_append, ← slotsAhead_zero]
      exact visitsFrom_unknownChunks hshape.unknown.chunks fun _ => rfl
  | cons entry ahead ih =>
      have hlt : nextOccupied isNamed m.unknown.inlineSlots index <
          m.unknown.inlineSlots.length := by
        by_contra hge
        rw [filter_of_nextOccupied_ge (Nat.not_lt.mp hge)] at hahead
        cases hahead
      obtain ⟨a, ha, hcons⟩ := nextOccupied_lt hlt
      rw [hahead] at hcons
      injection hcons with hentry htail
      rw [hlength] at hlt
      rw [HeadersIterator.advanceUnknownInline]
      dsimp only
      rw [if_pos hlt, List.filter_append, hahead, List.cons_append, List.map_cons]
      have hrest := ih hlt htail.symm
      rw [List.filter_append, ← htail] at hrest
      refine .cons (by simp) ?_ hrest
      simp [HeadersIterator.value, ha, hentry]

theorem visitsFrom_knownChunks (hshape : m.Shaped) {chunks : List (List KnownEntry)} {index : ℕ}
    (hwidth : ∀ chunk ∈ chunks, chunk.length = KNOWN_HEADERS_CHUNK_SIZE)
    (hzero : chunks = [] → index = 0) :
    m.VisitsFrom memory
      (HeadersIterator.advanceKnownChunks m
        { index, phase := 1, knownChunk := chunks, unknownChunk := [] })
      (((slotsAhead chunks index).filter isKnown).map (HeadersIterator.knownPair memory) ++
        (m.unknown.slots.filter isNamed).map (HeadersIterator.unknownPair memory)) := by
  generalize hahead : (slotsAhead chunks index).filter isKnown = ahead
  induction ahead generalizing chunks index with
  | nil =>
      rcases nextInChunks_spec isKnown hwidth hzero with
        ⟨hend, -⟩ | ⟨chunk, rest, next, a, -, -, -, -, hcons⟩
      · rw [HeadersIterator.advanceKnownChunks, hend]
        exact visitsFrom_unknownInline hshape (Nat.zero_le _)
      · rw [hahead] at hcons
        cases hcons
  | cons entry ahead ih =>
      rcases nextInChunks_spec isKnown hwidth hzero with
        ⟨-, hnone⟩ | ⟨chunk, rest, next, a, hnext, hlt, ha, hwidth', hcons⟩
      · rw [hahead] at hnone
        cases hnone
      · rw [hahead] at hcons
        injection hcons with hentry htail
        rw [HeadersIterator.advanceKnownChunks, hnext]
        dsimp only
        rw [if_neg (List.cons_ne_nil chunk rest), List.map_cons, List.cons_append]
        refine .cons (by simp) ?_ (ih hwidth' (by simp) htail.symm)
        simp [HeadersIterator.value, ha, hentry]

theorem visitsFrom_knownInline (hshape : m.Shaped) {index : ℕ}
    (hindex : index ≤ KNOWN_HEADERS_INLINE_SIZE) :
    m.VisitsFrom memory
      (HeadersIterator.advanceKnownInline m
        { index, phase := 0, knownChunk := [], unknownChunk := [] })
      ((((m.known.inlineSlots.drop index) ++ m.known.chunks.flatten).filter isKnown).map
          (HeadersIterator.knownPair memory) ++
        (m.unknown.slots.filter isNamed).map (HeadersIterator.unknownPair memory)) := by
  have hlength := hshape.known.inlineSlots
  generalize hahead : (m.known.inlineSlots.drop index).filter isKnown = ahead
  induction ahead generalizing index with
  | nil =>
      have hstop : ¬ nextOccupied isKnown m.known.inlineSlots index <
          KNOWN_HEADERS_INLINE_SIZE := by
        rw [← hlength]
        intro hlt
        obtain ⟨a, -, hcons⟩ := nextOccupied_lt hlt
        rw [hahead] at hcons
        cases hcons
      rw [HeadersIterator.advanceKnownInline]
      dsimp only
      rw [if_neg hstop, List.filter_append, hahead, List.nil_append, ← slotsAhead_zero]
      exact visitsFrom_knownChunks hshape hshape.known.chunks fun _ => rfl
  | cons entry ahead ih =>
      have hlt : nextOccupied isKnown m.known.inlineSlots index <
          m.known.inlineSlots.length := by
        by_contra hge
        rw [filter_of_nextOccupied_ge (Nat.not_lt.mp hge)] at hahead
        cases hahead
      obtain ⟨a, ha, hcons⟩ := nextOccupied_lt hlt
      rw [hahead] at hcons
      injection hcons with hentry htail
      rw [hlength] at hlt
      rw [HeadersIterator.advanceKnownInline]
      dsimp only
      rw [if_pos hlt, List.filter_append, hahead, List.cons_append, List.map_cons,
        List.cons_append]
      have hrest := ih hlt htail.symm
      rw [List.filter_append, ← htail] at hrest
      refine .cons (by simp) ?_ hrest
      simp [HeadersIterator.value, ha, hentry]

/-- The loop over all headers ends and has been given the stored ones in order. -/
theorem visitsFrom_begin (hshape : m.Shaped) :
    m.VisitsFrom memory m.begin (m.entries memory) :=
  visitsFrom_knownInline hshape (Nat.zero_le _)

end Visits

end HeadersMap

end Http
end Katana
