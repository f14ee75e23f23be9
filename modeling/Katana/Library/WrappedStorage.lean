import Katana.Library.Storage

/-!
# Ranges that go round

A range of a block that goes on at the front where it reaches the end.  It is read and
written in two parts.
-/

namespace Katana
namespace Library

section Wrapped

variable {α : Type*} {mem data : List α} {pos n m i : ℕ}

theorem getElem?_overwrite (h : pos ≤ mem.length) :
    (overwrite mem pos data)[i]? =
      if pos ≤ i ∧ i < pos + data.length then data[i - pos]? else mem[i]? := by
  have hfront : (mem.take pos).length = pos := by
    rw [List.length_take, Nat.min_eq_left h]
  unfold overwrite
  by_cases hlow : i < pos
  · rw [if_neg (by omega), List.append_assoc, List.getElem?_append_left (by omega),
      List.getElem?_take_of_lt hlow]
  · by_cases hin : i < pos + data.length
    · rw [if_pos ⟨by omega, hin⟩, List.getElem?_append_left (by rw [List.length_append]; omega),
        List.getElem?_append_right (by omega), hfront]
    · have hbehind : pos + data.length + (i - (pos + data.length)) = i := by omega
      rw [if_neg (by omega), List.getElem?_append_right (by rw [List.length_append]; omega),
        List.getElem?_drop, List.length_append, hfront, hbehind]

/-- How many of `n` cells come before the end. -/
def beforeEnd (mem : List α) (pos n : ℕ) : ℕ :=
  min n (mem.length - pos)

/-- The `n` cells from `pos` on. -/
def around (mem : List α) (pos n : ℕ) : List α :=
  slice mem pos (beforeEnd mem pos n) ++ slice mem 0 (n - beforeEnd mem pos n)

def loadAround (mem : List α) (pos n : ℕ) : Option (List α) := do
  let first ← load mem pos (beforeEnd mem pos n)
  let rest ← load mem 0 (n - beforeEnd mem pos n)
  return first ++ rest

def storeAround (mem : List α) (pos : ℕ) (data : List α) : Option (List α) := do
  let mem' ← store mem pos (data.take (beforeEnd mem pos data.length))
  store mem' 0 (data.drop (beforeEnd mem pos data.length))

/-- Where a place behind `pos` is. -/
theorem wrap_eq (hpos : pos < mem.length) (hi : i ≤ mem.length) :
    (pos + i) % mem.length = if pos + i < mem.length then pos + i else pos + i - mem.length := by
  split
  next hlow => exact Nat.mod_eq_of_lt hlow
  next hhigh =>
    rw [Nat.mod_eq_sub_mod (by omega)]
    exact Nat.mod_eq_of_lt (by omega)

theorem loadAround_eq (hpos : pos < mem.length) (hn : n ≤ mem.length) :
    loadAround mem pos n = some (around mem pos n) := by
  have hbefore : beforeEnd mem pos n = min n (mem.length - pos) := rfl
  have hfirst : pos + beforeEnd mem pos n ≤ mem.length := by omega
  have hrest : 0 + (n - beforeEnd mem pos n) ≤ mem.length := by omega
  simp [loadAround, around, load_eq hfirst, load_eq hrest]

theorem length_around (hpos : pos < mem.length) (hn : n ≤ mem.length) :
    (around mem pos n).length = n := by
  have hbefore : beforeEnd mem pos n = min n (mem.length - pos) := rfl
  rw [around, List.length_append, length_slice (by omega), length_slice (by omega)]
  omega

theorem getElem?_around (hpos : pos < mem.length) (hn : n ≤ mem.length) (hi : i < n) :
    (around mem pos n)[i]? = mem[(pos + i) % mem.length]? := by
  have hbefore : beforeEnd mem pos n = min n (mem.length - pos) := rfl
  have hfirst : (slice mem pos (beforeEnd mem pos n)).length = beforeEnd mem pos n :=
    length_slice (by omega)
  rw [wrap_eq hpos (by omega), around]
  by_cases hin : i < beforeEnd mem pos n
  · rw [List.getElem?_append_left (by omega), getElem?_slice hin, if_pos (by omega)]
  · rw [List.getElem?_append_right (by omega), hfirst, getElem?_slice (by omega), if_neg (by omega)]
    congr 1
    omega

/-- Equal lengths and the same cells make a range. -/
theorem eq_around {cells : List α} (hpos : pos < mem.length) (hlength : cells.length ≤ mem.length)
    (h : ∀ i < cells.length, cells[i]? = mem[(pos + i) % mem.length]?) :
    cells = around mem pos cells.length := by
  apply List.ext_getElem?
  intro i
  by_cases hi : i < cells.length
  · rw [h i hi, getElem?_around hpos hlength hi]
  · rw [List.getElem?_eq_none (by omega),
      List.getElem?_eq_none (by rw [length_around hpos hlength]; omega)]

theorem take_around (hpos : pos < mem.length) (hn : n ≤ mem.length) (hm : m ≤ n) :
    (around mem pos n).take m = around mem pos m := by
  have hlength : ((around mem pos n).take m).length = m := by
    rw [List.length_take, length_around hpos hn, Nat.min_eq_left hm]
  have heq := eq_around hpos (hlength.trans_le (hm.trans hn)) fun i hi => by
    rw [List.getElem?_take_of_lt (by omega), getElem?_around hpos hn (by omega)]
  rwa [hlength] at heq

theorem drop_around (hpos : pos < mem.length) (hn : n ≤ mem.length) (hm : m ≤ n) :
    (around mem pos n).drop m = around mem ((pos + m) % mem.length) (n - m) := by
  have hlength : ((around mem pos n).drop m).length = n - m := by
    rw [List.length_drop, length_around hpos hn]
  have hpos' : (pos + m) % mem.length < mem.length := Nat.mod_lt _ (by omega)
  have heq := eq_around hpos' (show ((around mem pos n).drop m).length ≤ _ by omega) fun i hi => by
    rw [List.getElem?_drop, getElem?_around hpos hn (by omega), Nat.mod_add_mod, Nat.add_assoc]
  rwa [hlength] at heq

theorem storeAround_some (hpos : pos < mem.length) (hdata : data.length ≤ mem.length) :
    ∃ mem', storeAround mem pos data = some mem' ∧ mem'.length = mem.length ∧
      ∀ i < mem.length, mem'[(pos + i) % mem.length]? =
        if i < data.length then data[i]? else mem[(pos + i) % mem.length]? := by
  have hbefore : beforeEnd mem pos data.length = min data.length (mem.length - pos) := rfl
  unfold storeAround
  generalize beforeEnd mem pos data.length = first at hbefore
  have htake : (data.take first).length = first := by
    rw [List.length_take]
    omega
  have hdrop : (data.drop first).length = data.length - first := List.length_drop
  have hfirst : pos + (data.take first).length ≤ mem.length := by omega
  have hlength : (overwrite mem pos (data.take first)).length = mem.length :=
    length_overwrite hfirst
  have hrest : 0 + (data.drop first).length ≤ (overwrite mem pos (data.take first)).length := by
    omega
  simp only [store_eq hfirst, Option.bind_eq_bind, Option.bind_some, store_eq hrest]
  refine ⟨_, rfl, (length_overwrite hrest).trans hlength, fun i hi => ?_⟩
  rw [getElem?_overwrite (by omega), getElem?_overwrite (by omega), wrap_eq hpos (by omega), htake,
    hdrop]
  by_cases hin : pos + i < mem.length
  · rw [if_pos hin, if_neg (by omega)]
    by_cases hwritten : i < data.length
    · rw [if_pos (by omega), if_pos hwritten, List.getElem?_take_of_lt (by omega)]
      congr 1
      omega
    · rw [if_neg (by omega), if_neg hwritten]
  · rw [if_neg hin]
    by_cases hwritten : i < data.length
    · rw [if_pos (by omega), if_pos hwritten, List.getElem?_drop]
      congr 1
      omega
    · rw [if_neg (by omega), if_neg (by omega), if_neg hwritten]

/-- What is written behind a range belongs to it. -/
theorem storeAround_behind (hpos : pos < mem.length) (hroom : n + data.length ≤ mem.length) :
    ∃ mem', storeAround mem ((pos + n) % mem.length) data = some mem' ∧
      mem'.length = mem.length ∧
      around mem' pos (n + data.length) = around mem pos n ++ data := by
  have htail : (pos + n) % mem.length < mem.length := Nat.mod_lt _ (by omega)
  obtain ⟨mem', hstore, hlength, hcells⟩ := storeAround_some htail (show data.length ≤ _ by omega)
  refine ⟨mem', hstore, hlength, ?_⟩
  have hfront : (around mem pos n).length = n := length_around hpos (by omega)
  have hcount : (around mem pos n ++ data).length = n + data.length := by
    rw [List.length_append, hfront]
  suffices hsame : around mem pos n ++ data = around mem' pos (around mem pos n ++ data).length by
    rw [hcount] at hsame
    exact hsame.symm
  refine eq_around (by omega) (by omega) fun i hi => ?_
  rw [hcount] at hi
  rw [hlength]
  by_cases hold : i < n
  · have hback : (pos + i) % mem.length =
        ((pos + n) % mem.length + (mem.length - n + i)) % mem.length := by
      rw [Nat.mod_add_mod, show pos + n + (mem.length - n + i) = pos + i + mem.length by omega,
        Nat.add_mod_right]
    rw [List.getElem?_append_left (by omega), getElem?_around hpos (by omega) hold, hback,
      hcells _ (by omega), if_neg (by omega)]
  · have hbehind : (pos + i) % mem.length = ((pos + n) % mem.length + (i - n)) % mem.length := by
      rw [Nat.mod_add_mod, show pos + n + (i - n) = pos + i by omega]
    rw [List.getElem?_append_right (by omega), hfront, hbehind, hcells _ (by omega),
      if_pos (by omega)]

end Wrapped

end Library
end Katana
