import Mathlib

/-!
# Storage of a fixed size

A block of cells that is read and written in ranges.  A range that does not lie
inside the block is refused, so that an execution that is not refused has stayed
inside it.  The lemmas say what a range holds after another one was written.
-/

namespace Katana
namespace Library

section Storage

variable {α : Type*}

/-- The `n` cells from `pos` on. -/
def slice (mem : List α) (pos n : ℕ) : List α :=
  (mem.drop pos).take n

/-- The block with `data` in the cells from `pos` on. -/
def overwrite (mem : List α) (pos : ℕ) (data : List α) : List α :=
  mem.take pos ++ data ++ mem.drop (pos + data.length)

def load (mem : List α) (pos n : ℕ) : Option (List α) :=
  if pos + n ≤ mem.length then some (slice mem pos n) else none

def store (mem : List α) (pos : ℕ) (data : List α) : Option (List α) :=
  if pos + data.length ≤ mem.length then some (overwrite mem pos data) else none

variable {mem data more : List α} {pos start n m : ℕ}

theorem load_eq (h : pos + n ≤ mem.length) : load mem pos n = some (slice mem pos n) :=
  if_pos h

theorem store_eq (h : pos + data.length ≤ mem.length) :
    store mem pos data = some (overwrite mem pos data) :=
  if_pos h

theorem length_slice (h : pos + n ≤ mem.length) : (slice mem pos n).length = n := by
  simp [slice]
  omega

theorem getElem?_slice {i : ℕ} (h : i < n) : (slice mem pos n)[i]? = mem[pos + i]? := by
  rw [slice, List.getElem?_take_of_lt h, List.getElem?_drop]

@[simp]
theorem slice_zero : slice mem pos 0 = [] := by
  simp [slice]

theorem slice_all : slice mem 0 mem.length = mem := by
  simp [slice]

theorem slice_add : slice mem pos (n + m) = slice mem pos n ++ slice mem (pos + n) m := by
  simp only [slice, List.take_add, List.drop_drop]

theorem take_slice (h : m ≤ n) : (slice mem pos n).take m = slice mem pos m := by
  simp [slice, List.take_take, h]

theorem drop_slice : (slice mem pos n).drop m = slice mem (pos + m) (n - m) := by
  simp [slice, List.drop_take, List.drop_drop]

theorem slice_append (h : pos + n ≤ mem.length) : slice (mem ++ data) pos n = slice mem pos n := by
  unfold slice
  rw [List.drop_append_of_le_length (by omega), List.take_append_of_le_length (by simp; omega)]

theorem length_overwrite (h : pos + data.length ≤ mem.length) :
    (overwrite mem pos data).length = mem.length := by
  simp [overwrite]
  omega

theorem length_of_store {mem' : List α} (h : store mem pos data = some mem') :
    mem'.length = mem.length := by
  unfold store at h
  split at h
  next hinside =>
    rw [← Option.some.inj h]
    exact length_overwrite hinside
  next => exact absurd h (Option.some_ne_none mem').symm

theorem slice_overwrite_same (h : pos ≤ mem.length) :
    slice (overwrite mem pos data) pos data.length = data := by
  simp [slice, overwrite, List.length_take, Nat.min_eq_left h]

/-- A range in front of the written one is unchanged. -/
theorem slice_overwrite_before (h : start + n ≤ pos) (hpos : pos ≤ mem.length) :
    slice (overwrite mem pos data) start n = slice mem start n := by
  have htake : slice (mem.take pos) start n = slice mem start n := by
    simp only [slice, List.drop_take, List.take_take]
    rw [Nat.min_eq_left (by omega)]
  unfold overwrite
  rw [List.append_assoc, slice_append (by simp; omega), htake]

/-- Two writes behind each other are one. -/
theorem overwrite_append (h : pos + data.length ≤ mem.length) :
    overwrite (overwrite mem pos data) (pos + data.length) more =
      overwrite mem pos (data ++ more) := by
  have hfront : (mem.take pos ++ data).length = pos + data.length := by
    simp
    omega
  unfold overwrite
  rw [List.take_left' hfront, ← List.drop_drop, List.drop_left' hfront, List.drop_drop,
    List.length_append, List.append_assoc (mem.take pos) data more, Nat.add_assoc]

theorem overwrite_nil : overwrite mem pos [] = mem := by
  simp [overwrite]

theorem overwrite_all (h : data.length = mem.length) : overwrite mem 0 data = data := by
  simp [overwrite, h]

/-- A pointer into a block, moved on by what is written through it. -/
structure SpanWriter (α : Type*) where
  span : List α
  pos : ℕ

def SpanWriter.put (w : SpanWriter α) (data : List α) : Option (SpanWriter α) :=
  (store w.span w.pos data).map fun span => { span := span, pos := w.pos + data.length }

/-- Wherever there is room for it, `write` puts `data` and nothing else. -/
def Puts (write : SpanWriter α → Option (SpanWriter α)) (data : List α) : Prop :=
  ∀ w : SpanWriter α, w.pos + data.length ≤ w.span.length →
    write w = some { span := overwrite w.span w.pos data, pos := w.pos + data.length }

theorem puts_put (data : List α) : Puts (fun w => w.put data) data := by
  intro w hroom
  simp [SpanWriter.put, store_eq hroom]

theorem puts_nil : Puts (some : SpanWriter α → Option (SpanWriter α)) [] := by
  intro w hroom
  simp [overwrite_nil]

theorem Puts.bind {first rest : SpanWriter α → Option (SpanWriter α)} (hfirst : Puts first data)
    (hrest : Puts rest more) : Puts (fun w => first w >>= rest) (data ++ more) := by
  intro w hroom
  rw [List.length_append] at hroom
  have hinside : w.pos + data.length ≤ w.span.length := by omega
  simp only [hfirst w hinside, Option.bind_eq_bind, Option.bind_some]
  rw [hrest _ (by simp only [length_overwrite hinside]; omega)]
  simp only [overwrite_append hinside, List.length_append, Nat.add_assoc]

theorem puts_foldlM {β : Type*} {write : SpanWriter α → β → Option (SpanWriter α)}
    {text : β → List α} (hwrite : ∀ item, Puts (fun w => write w item) (text item))
    (items : List β) : Puts (fun w => items.foldlM write w) (items.flatMap text) := by
  induction items with
  | nil => exact puts_nil
  | cons item items ih => exact (hwrite item).bind ih

/-- A span of exactly the length of the text is filled. -/
theorem Puts.fills {write : SpanWriter α → Option (SpanWriter α)} (h : Puts write data)
    {span : List α} (hspan : span.length = data.length) :
    write { span := span, pos := 0 } = some { span := data, pos := data.length } := by
  rw [h _ (by simp [hspan])]
  simp [overwrite_all hspan.symm]

end Storage

end Library
end Katana
