import Katana.Library.Storage

/-!
# Reading in a window

A text of which nothing in front of a place may be read.  A read outside this window
is refused, so that a scan that is not refused has stayed inside it.  A position of
the scan is named by what lies behind it, and a scan over positions is then described
by a function on lists.
-/

namespace Katana
namespace Library

variable {α : Type*}

structure Window (α : Type*) where
  text : List α
  low : ℕ

namespace Window

def read (w : Window α) (i : ℕ) : Option α :=
  if w.low ≤ i then w.text[i]? else none

def load (w : Window α) (i n : ℕ) : Option (List α) :=
  if w.low ≤ i then Library.load w.text i n else none

/-- Nothing is left from the position on. -/
def atEnd (w : Window α) (i : ℕ) : Bool :=
  w.text.length ≤ i

/-- `while (p < end && test(*p)) ++p` -/
def skipWhile (w : Window α) (test : α → Bool) (i : ℕ) : Option ℕ :=
  if i < w.text.length then
    match w.read i with
    | none => none
    | some a => if test a then w.skipWhile test (i + 1) else some i
  else some i
termination_by w.text.length - i

/-- The position at which `rest` begins. -/
def place (w : Window α) (rest : List α) : ℕ :=
  w.text.length - rest.length

/-- What may be read from a position on. -/
def Ahead (w : Window α) (rest : List α) : Prop :=
  rest <:+ w.text.drop w.low

variable {w : Window α} {a : α} {rest behind : List α}

theorem Ahead.suffix (h : w.Ahead rest) (hbehind : behind <:+ rest) : w.Ahead behind :=
  hbehind.trans h

theorem Ahead.tail (h : w.Ahead (a :: rest)) : w.Ahead rest :=
  h.suffix (List.suffix_cons a rest)

theorem Ahead.length_le (h : w.Ahead rest) : rest.length ≤ w.text.length - w.low := by
  have hle := List.IsSuffix.length_le h
  rwa [List.length_drop] at hle

theorem Ahead.drop_place (h : w.Ahead rest) : w.text.drop (w.place rest) = rest :=
  (List.suffix_iff_eq_drop.mp (h.trans (List.drop_suffix _ _))).symm

theorem place_le (rest : List α) : w.place rest ≤ w.text.length :=
  Nat.sub_le _ _

@[simp] theorem place_nil : w.place [] = w.text.length :=
  Nat.sub_zero _

theorem place_le_place (hbehind : behind <:+ rest) : w.place rest ≤ w.place behind :=
  Nat.sub_le_sub_left hbehind.length_le _

@[simp] theorem atEnd_length : w.atEnd w.text.length = true := by
  rw [atEnd, decide_eq_true le_rfl]

theorem Ahead.place_lt (h : w.Ahead (a :: rest)) : w.place (a :: rest) < w.text.length := by
  have hle := h.length_le
  rw [List.length_cons] at hle
  rw [place, List.length_cons]
  omega

theorem Ahead.place_cons (h : w.Ahead (a :: rest)) : w.place (a :: rest) + 1 = w.place rest := by
  have hle := h.length_le
  rw [List.length_cons] at hle
  rw [place, place, List.length_cons]
  omega

theorem Ahead.atEnd_cons (h : w.Ahead (a :: rest)) : w.atEnd (w.place (a :: rest)) = false := by
  rw [atEnd, decide_eq_false (Nat.not_le.mpr h.place_lt)]

theorem Ahead.low_le (h : w.Ahead (a :: rest)) : w.low ≤ w.place (a :: rest) := by
  have hle := h.length_le
  rw [List.length_cons] at hle
  rw [place, List.length_cons]
  omega

theorem Ahead.read_cons (h : w.Ahead (a :: rest)) : w.read (w.place (a :: rest)) = some a := by
  rw [read, if_pos h.low_le, ← Nat.add_zero (w.place _), ← List.getElem?_drop, h.drop_place]
  rfl

theorem Ahead.place_drop (h : w.Ahead rest) {n : ℕ} (hn : n ≤ rest.length) :
    w.place rest + n = w.place (rest.drop n) := by
  have hle := h.length_le
  rw [place, place, List.length_drop]
  omega

/-- What is left in the text behind the position. -/
theorem Ahead.room (h : w.Ahead rest) : w.text.length - w.place rest = rest.length := by
  have hle := h.length_le
  rw [place]
  omega

theorem Ahead.load_take (h : w.Ahead rest) (hne : rest ≠ []) {n : ℕ} (hn : n ≤ rest.length) :
    w.load (w.place rest) n = some (rest.take n) := by
  obtain ⟨a, tail, rfl⟩ := List.exists_cons_of_ne_nil hne
  have hroom := h.room
  have hplace := h.place_lt
  rw [load, if_pos h.low_le, load_eq (by omega), slice, h.drop_place]

/-- All that is left behind the position. -/
theorem Ahead.load_rest (h : w.Ahead (a :: rest)) :
    w.load (w.place (a :: rest)) (w.text.length - w.place (a :: rest)) = some (a :: rest) := by
  rw [h.room, h.load_take (List.cons_ne_nil a rest) le_rfl, List.take_length]

theorem Ahead.place_suffix (h : w.Ahead rest) (hbehind : behind <:+ rest) :
    w.place rest + (rest.length - behind.length) = w.place behind := by
  have hle := h.length_le
  have hlength := hbehind.length_le
  rw [place, place]
  omega

theorem Ahead.skipWhile_eq (h : w.Ahead rest) (test : α → Bool) :
    w.skipWhile test (w.place rest) = some (w.place (rest.dropWhile test)) := by
  induction rest with
  | nil => rw [skipWhile, place_nil, if_neg (lt_irrefl _), List.dropWhile_nil, place_nil]
  | cons a rest ih =>
    rw [skipWhile, if_pos h.place_lt, h.read_cons]
    by_cases htest : test a = true
    · rw [List.dropWhile_cons_of_pos htest, ← ih h.tail, ← h.place_cons]
      exact if_pos htest
    · rw [List.dropWhile_cons_of_neg htest]
      exact if_neg htest

/-- All of the text behind a position may be read. -/
theorem ahead_drop (text : List α) (low : ℕ) :
    (Window.mk text low).Ahead (text.drop low) :=
  List.suffix_rfl

theorem place_drop_low {text : List α} {low : ℕ} (hlow : low ≤ text.length) :
    (Window.mk text low).place (text.drop low) = low := by
  rw [place, List.length_drop]
  show text.length - (text.length - low) = low
  omega

end Window

end Library
end Katana
