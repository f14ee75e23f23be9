import Katana.Library.Storage
import Katana.Library.Transition
import Katana.Http.Bytes

/-!
# The I/O buffer

`io_buffer` keeps a byte queue in one block of storage, between a read and a
write position.  Consumed bytes are reclaimed by moving the rest to the front,
and the block is replaced by a larger one when it is full.  Fresh storage holds
any bytes.  An operation fails when it would touch storage outside the block, or
when the size it asks for does not fit a `size_t`.
-/

namespace Katana
namespace Memory

open Library
open Http (Byte)

def SIZE_MAX : ℕ := 2 ^ 64 - 1

def COMPACT_THRESHOLD : ℕ := 4096
def INITIAL_CAPACITY : ℕ := 64

structure IoBuffer where
  data : List Byte
  capacity : ℕ
  readPos : ℕ := 0
  writePos : ℕ := 0
deriving Repr, DecidableEq

/-- What fresh storage holds. -/
abbrev Garbage := ℕ → Byte

def allocateRaw (garbage : Garbage) (n : ℕ) : List Byte :=
  (List.range n).map garbage

@[simp]
theorem length_allocateRaw (garbage : Garbage) (n : ℕ) : (allocateRaw garbage n).length = n := by
  simp [allocateRaw]

namespace IoBuffer

def make (garbage : Garbage) (capacity : ℕ) : IoBuffer :=
  if capacity = 0 then { data := allocateRaw garbage INITIAL_CAPACITY, capacity := INITIAL_CAPACITY }
  else { data := allocateRaw garbage capacity, capacity := capacity }

def size (b : IoBuffer) : ℕ :=
  b.writePos - b.readPos

def readableSpan (b : IoBuffer) : Option (List Byte) :=
  load b.data b.readPos (b.writePos - b.readPos)

def compactIfNeeded (b : IoBuffer) : Option IoBuffer := do
  if COMPACT_THRESHOLD ≤ b.readPos ∧ b.size < b.readPos then
    let dataSize := b.writePos - b.readPos
    let moved ← load b.data b.readPos dataSize
    let data ← store b.data 0 moved
    return { b with data := data, readPos := 0, writePos := dataSize }
  else
    return b

/-- New storage with the unread bytes at its front. -/
def reallocate (garbage : Garbage) (b : IoBuffer) (capacity : ℕ) : Option IoBuffer := do
  let dataSize := b.writePos - b.readPos
  let unread ← load b.data b.readPos dataSize
  let data ← store (allocateRaw garbage capacity) 0 unread
  return { data := data, capacity := capacity, readPos := 0, writePos := dataSize }

def available (b : IoBuffer) : ℕ :=
  if b.writePos < b.capacity then b.capacity - b.writePos else 0

def grownCapacity (b : IoBuffer) (bytes : ℕ) : Option ℕ :=
  let doubledCap := if 0 < b.capacity then b.capacity * 2 % 2 ^ 64 else INITIAL_CAPACITY
  let doubledCap := if SIZE_MAX / 2 < b.capacity then SIZE_MAX else doubledCap
  let requiredCap := (b.writePos + bytes) % 2 ^ 64
  if requiredCap < b.writePos ∨ requiredCap < bytes then none
  else some (max doubledCap requiredCap)

def ensureWritable (garbage : Garbage) (b : IoBuffer) (bytes : ℕ) : Option IoBuffer := do
  if b.available < bytes then
    let b ← b.compactIfNeeded
    if b.available < bytes then
      let newCap ← b.grownCapacity bytes
      b.reallocate garbage newCap
    else
      return b
  else
    return b

def append (garbage : Garbage) (b : IoBuffer) (bytes : List Byte) : Option IoBuffer := do
  let newWritePos := (b.writePos + bytes.length) % 2 ^ 64
  if newWritePos ≤ b.capacity then
    let data ← store b.data b.writePos bytes
    return { b with data := data, writePos := newWritePos }
  else
    let b ← b.ensureWritable garbage bytes.length
    let data ← store b.data b.writePos bytes
    return { b with data := data, writePos := (b.writePos + bytes.length) % 2 ^ 64 }

/-- The span is the `size` cells behind the write position. -/
def writableSpan (garbage : Garbage) (b : IoBuffer) (size : ℕ) : Option (IoBuffer × List Byte) := do
  let b ←
    if b.capacity < (b.writePos + size) % 2 ^ 64 then b.ensureWritable garbage size else some b
  let span ← load b.data b.writePos size
  return (b, span)

/-- The caller writes through the span. -/
def fill (b : IoBuffer) (span : List Byte) : Option IoBuffer := do
  let data ← store b.data b.writePos span
  return { b with data := data }

def commit (b : IoBuffer) (bytes : ℕ) : IoBuffer :=
  { b with writePos := (b.writePos + bytes) % 2 ^ 64 }

def consume (b : IoBuffer) (bytes : ℕ) : Option IoBuffer :=
  let b := { b with readPos := b.readPos + min bytes b.size }
  if b.readPos = b.writePos then some { b with readPos := 0, writePos := 0 }
  else b.compactIfNeeded

def clear (b : IoBuffer) : IoBuffer :=
  { b with readPos := 0, writePos := 0 }

def reserve (garbage : Garbage) (b : IoBuffer) (newCapacity : ℕ) : Option IoBuffer :=
  if b.capacity < newCapacity then b.reallocate garbage newCapacity else some b

/-- The buffer represents the queue. -/
structure Holds (b : IoBuffer) (queue : List Byte) : Prop where
  storage : b.data.length = b.capacity
  fits : b.capacity < 2 ^ 64
  ordered : b.readPos ≤ b.writePos
  bounded : b.writePos ≤ b.capacity
  content : slice b.data b.readPos b.size = queue

section Operations

variable {garbage : Garbage} {b : IoBuffer} {queue bytes : List Byte} {n : ℕ}

theorem Holds.readableSpan (h : b.Holds queue) : b.readableSpan = some queue := by
  have hstorage := h.storage
  have hordered := h.ordered
  have hbounded := h.bounded
  unfold IoBuffer.readableSpan
  rw [load_eq (by omega), ← h.content]
  rfl

theorem Holds.length_queue (h : b.Holds queue) : queue.length = b.size := by
  have hstorage := h.storage
  have hordered := h.ordered
  have hbounded := h.bounded
  have hsize : b.readPos + b.size ≤ b.data.length := by
    unfold size
    omega
  rw [← h.content, length_slice hsize]

theorem holds_make {capacity : ℕ} (hcapacity : capacity < 2 ^ 64) :
    (make garbage capacity).Holds [] := by
  unfold make
  split
  · constructor <;> simp [size, INITIAL_CAPACITY]
  · constructor
    · simp
    · exact hcapacity
    · exact le_rfl
    · simp
    · simp [size]

/-- Unread bytes at the front of a block of the same or of another size. -/
theorem Holds.moved (h : b.Holds queue) {mem : List Byte} {capacity : ℕ}
    (hmem : mem.length = capacity) (hsize : b.size ≤ capacity) (hfits : capacity < 2 ^ 64) :
    store mem 0 queue = some (overwrite mem 0 queue) ∧
      Holds { data := overwrite mem 0 queue, capacity := capacity,
              readPos := 0, writePos := b.size } queue := by
  have hlength := h.length_queue
  have hroom : 0 + queue.length ≤ mem.length := by omega
  refine ⟨store_eq hroom, ?_⟩
  constructor
  · rw [length_overwrite hroom]
    exact hmem
  · exact hfits
  · simp
  · exact hsize
  · simp only [size, Nat.sub_zero]
    change slice _ 0 b.size = queue
    rw [← hlength]
    exact slice_overwrite_same (by omega)

theorem Holds.compactIfNeeded (h : b.Holds queue) :
    ∃ b', b.compactIfNeeded = some b' ∧ b'.Holds queue ∧ b'.capacity = b.capacity ∧
      b'.writePos ≤ b.writePos := by
  have hbounded := h.bounded
  have hread := h.readableSpan
  unfold IoBuffer.readableSpan at hread
  unfold IoBuffer.compactIfNeeded
  split
  next hneeded =>
    have hsize : b.size ≤ b.capacity := by
      unfold size
      omega
    obtain ⟨hstore, hholds⟩ := h.moved h.storage hsize h.fits
    simp only [hread, Option.bind_eq_bind, Option.bind_some, hstore]
    refine ⟨_, rfl, hholds, rfl, ?_⟩
    simp
  next => exact ⟨b, rfl, h, rfl, le_rfl⟩

theorem Holds.reallocate (h : b.Holds queue) (garbage : Garbage) (hsize : b.size ≤ n) (hfits : n < 2 ^ 64) :
    ∃ b', b.reallocate garbage n = some b' ∧ b'.Holds queue ∧ b'.capacity = n ∧
      b'.writePos = b.size := by
  have hread := h.readableSpan
  unfold IoBuffer.readableSpan at hread
  obtain ⟨hstore, hholds⟩ := h.moved (length_allocateRaw garbage n) hsize hfits
  unfold IoBuffer.reallocate
  simp only [hread, Option.bind_eq_bind, Option.bind_some, hstore]
  exact ⟨_, rfl, hholds, rfl, rfl⟩

theorem grownCapacity_spec (h : b.Holds queue) (hfits : b.writePos + n < 2 ^ 64) :
    ∃ capacity, b.grownCapacity n = some capacity ∧ b.writePos + n ≤ capacity ∧
      capacity < 2 ^ 64 := by
  unfold grownCapacity
  dsimp only
  rw [Nat.mod_eq_of_lt hfits, if_neg (by omega)]
  refine ⟨_, rfl, le_max_right _ _, ?_⟩
  apply max_lt _ hfits
  have hcapacity := h.fits
  unfold SIZE_MAX INITIAL_CAPACITY
  split_ifs <;> omega

theorem Holds.ensureWritable (h : b.Holds queue) (garbage : Garbage) (hfits : b.writePos + n < 2 ^ 64) :
    ∃ b', b.ensureWritable garbage n = some b' ∧ b'.Holds queue ∧
      b'.writePos + n ≤ b'.capacity ∧ b'.writePos ≤ b.writePos := by
  have hroom : ∀ b' : IoBuffer, b'.writePos ≤ b'.capacity → ¬ b'.available < n →
      b'.writePos + n ≤ b'.capacity := by
    intro b' hbounded havailable
    unfold available at havailable
    split at havailable <;> omega
  unfold IoBuffer.ensureWritable
  split
  next =>
    obtain ⟨b', hb', hholds, -, hwrite⟩ := h.compactIfNeeded
    rw [hb']
    simp only [Option.bind_eq_bind, Option.bind_some]
    split
    next =>
      obtain ⟨capacity, hcapacity, henough, hsmall⟩ :=
        grownCapacity_spec (n := n) hholds (by omega)
      have hsize : b'.size ≤ b'.writePos := Nat.sub_le _ _
      obtain ⟨b'', hb'', hholds'', hcap, hpos⟩ :=
        hholds.reallocate garbage (n := capacity) (by omega) hsmall
      rw [hcapacity]
      exact ⟨b'', hb'', hholds'', by omega, by omega⟩
    next havailable => exact ⟨b', rfl, hholds, hroom b' hholds.bounded havailable, hwrite⟩
  next havailable => exact ⟨b, rfl, h, hroom b h.bounded havailable, le_rfl⟩

/-- Writing behind the write position leaves the queue alone; moving the write
position over the written bytes appends them. -/
theorem Holds.written (h : b.Holds queue) (hroom : b.writePos + bytes.length ≤ b.capacity)
    {k : ℕ} (hk : k ≤ bytes.length) :
    store b.data b.writePos bytes = some (overwrite b.data b.writePos bytes) ∧
      Holds { b with data := overwrite b.data b.writePos bytes, writePos := b.writePos + k }
        (queue ++ bytes.take k) := by
  have hstorage := h.storage
  have hordered := h.ordered
  have hinside : b.writePos + bytes.length ≤ b.data.length := by omega
  refine ⟨store_eq hinside, ?_⟩
  constructor
  · rw [length_overwrite hinside]
    exact hstorage
  · exact h.fits
  · simp only
    omega
  · simp only
    omega
  · have hsplit : b.writePos + k - b.readPos = b.size + k := by
      unfold size
      omega
    have hend : b.readPos + b.size = b.writePos := by
      unfold size
      omega
    have hnew : slice (overwrite b.data b.writePos bytes) b.writePos bytes.length = bytes :=
      slice_overwrite_same (by omega)
    simp only [size]
    rw [hsplit, slice_add, slice_overwrite_before (by omega) (by omega), h.content, hend,
      ← take_slice hk, hnew]

theorem Holds.append (h : b.Holds queue) (garbage : Garbage) (hfits : b.writePos + bytes.length < 2 ^ 64) :
    ∃ b', b.append garbage bytes = some b' ∧ b'.Holds (queue ++ bytes) := by
  unfold IoBuffer.append
  dsimp only
  rw [Nat.mod_eq_of_lt hfits]
  split
  next hroom =>
    obtain ⟨hstore, hholds⟩ := h.written hroom le_rfl
    rw [hstore]
    rw [List.take_length] at hholds
    exact ⟨_, rfl, hholds⟩
  next =>
    obtain ⟨b', hb', hholds, hroom, hwrite⟩ := h.ensureWritable garbage hfits
    obtain ⟨hstore, hholds'⟩ := hholds.written hroom le_rfl
    rw [hb']
    simp only [Option.bind_eq_bind, Option.bind_some, hstore]
    rw [Nat.mod_eq_of_lt (by omega)]
    rw [List.take_length] at hholds'
    exact ⟨_, rfl, hholds'⟩

theorem Holds.writableSpan (h : b.Holds queue) (garbage : Garbage) (hfits : b.writePos + n < 2 ^ 64) :
    ∃ b' span, b.writableSpan garbage n = some (b', span) ∧ b'.Holds queue ∧
      span.length = n ∧ b'.writePos + n ≤ b'.capacity := by
  have hspan : ∀ b' : IoBuffer, b'.Holds queue → b'.writePos + n ≤ b'.capacity →
      (slice b'.data b'.writePos n).length = n ∧
        load b'.data b'.writePos n = some (slice b'.data b'.writePos n) := by
    intro b' hholds hroom
    have hstorage := hholds.storage
    exact ⟨length_slice (by omega), load_eq (by omega)⟩
  unfold IoBuffer.writableSpan
  rw [Nat.mod_eq_of_lt hfits]
  split
  next =>
    obtain ⟨b', hb', hholds, hroom, -⟩ := h.ensureWritable garbage hfits
    obtain ⟨hlength, hload⟩ := hspan b' hholds hroom
    rw [hb']
    simp only [Option.bind_eq_bind, Option.bind_some, hload]
    exact ⟨b', _, rfl, hholds, hlength, hroom⟩
  next hroom =>
    obtain ⟨hlength, hload⟩ := hspan b h (by omega)
    simp only [Option.bind_eq_bind, Option.bind_some, hload]
    exact ⟨b, _, rfl, h, hlength, by omega⟩

theorem Holds.fill_commit (h : b.Holds queue) (hroom : b.writePos + bytes.length ≤ b.capacity)
    {k : ℕ} (hk : k ≤ bytes.length) :
    ∃ b', b.fill bytes = some b' ∧ (b'.commit k).Holds (queue ++ bytes.take k) := by
  have hfits := h.fits
  obtain ⟨hstore, hholds⟩ := h.written hroom hk
  unfold fill commit
  rw [hstore]
  refine ⟨_, rfl, ?_⟩
  simp only
  rw [Nat.mod_eq_of_lt (by omega)]
  exact hholds

theorem Holds.consume (h : b.Holds queue) :
    ∃ b', b.consume n = some b' ∧ b'.Holds (queue.drop n) := by
  have hordered := h.ordered
  have hlength := h.length_queue
  have hsize : b.size = b.writePos - b.readPos := rfl
  have hdropped : Holds { b with readPos := b.readPos + min n b.size } (queue.drop n) := by
    constructor
    · exact h.storage
    · exact h.fits
    · simp only
      omega
    · exact h.bounded
    · have hrest : queue.drop n = queue.drop (min n b.size) := by
        rcases Nat.le_total n b.size with hn | hn
        · rw [Nat.min_eq_left hn]
        · rw [Nat.min_eq_right hn, List.drop_of_length_le (by omega),
            List.drop_of_length_le (by omega)]
      rw [hrest, ← h.content, drop_slice]
      simp only [size, Nat.sub_sub]
  unfold IoBuffer.consume
  dsimp only
  split
  next hempty =>
    refine ⟨_, rfl, ?_⟩
    have hnil : queue.drop n = [] := by
      apply List.drop_of_length_le
      omega
    rw [hnil]
    constructor
    · exact h.storage
    · exact h.fits
    · exact le_rfl
    · simp
    · simp [size]
  next =>
    obtain ⟨b', hb', hholds, -⟩ := hdropped.compactIfNeeded
    exact ⟨b', hb', hholds⟩

theorem Holds.clear (h : b.Holds queue) : b.clear.Holds [] := by
  constructor
  · exact h.storage
  · exact h.fits
  · exact le_rfl
  · simp [IoBuffer.clear]
  · simp [IoBuffer.clear, size]

theorem Holds.reserve (h : b.Holds queue) (garbage : Garbage) (hfits : n < 2 ^ 64) :
    ∃ b', b.reserve garbage n = some b' ∧ b'.Holds queue := by
  unfold IoBuffer.reserve
  split
  next hlarger =>
    have hbounded := h.bounded
    have hsize : b.size ≤ b.writePos := Nat.sub_le _ _
    obtain ⟨b', hb', hholds, -⟩ :=
      h.reallocate garbage (n := n) (by omega) hfits
    exact ⟨b', hb', hholds⟩
  next => exact ⟨b, rfl, h⟩

end Operations

/-- A call of the owner; `write` takes a span of the length of the bytes, fills it
with them and commits a part of it. -/
inductive Op where
  | append (bytes : List Byte)
  | write (bytes : List Byte) (committed : ℕ)
  | consume (bytes : ℕ)
  | reserve (newCapacity : ℕ)
  | clear
deriving Repr, DecidableEq

/-- A call, with what storage holds that is allocated during it. -/
def step (b : IoBuffer) : Garbage × Op → Option IoBuffer
  | (garbage, .append bytes) => b.append garbage bytes
  | (garbage, .write bytes committed) => do
      let (b, _) ← b.writableSpan garbage bytes.length
      let b ← b.fill bytes
      return b.commit committed
  | (_, .consume bytes) => b.consume bytes
  | (garbage, .reserve newCapacity) => b.reserve garbage newCapacity
  | (_, .clear) => some b.clear

/-- What the call does to the queue. -/
def queueStep (queue : List Byte) : Garbage × Op → List Byte
  | (_, .append bytes) => queue ++ bytes
  | (_, .write bytes committed) => queue ++ bytes.take committed
  | (_, .consume bytes) => queue.drop bytes
  | (_, .reserve _) => queue
  | (_, .clear) => []

/-- The sizes do not overflow `size_t`, and no more is committed than was asked
for. -/
def Fits (b : IoBuffer) : Garbage × Op → Prop
  | (_, .append bytes) => b.writePos + bytes.length < 2 ^ 64
  | (_, .write bytes committed) => b.writePos + bytes.length < 2 ^ 64 ∧ committed ≤ bytes.length
  | (_, .consume bytes) => bytes < 2 ^ 64
  | (_, .reserve newCapacity) => newCapacity < 2 ^ 64
  | (_, .clear) => True

instance (b : IoBuffer) (call : Garbage × Op) : Decidable (b.Fits call) :=
  match call with
  | (_, .append _) => inferInstanceAs (Decidable (_ < _))
  | (_, .write _ _) => inferInstanceAs (Decidable (_ ∧ _))
  | (_, .consume _) => inferInstanceAs (Decidable (_ < _))
  | (_, .reserve _) => inferInstanceAs (Decidable (_ < _))
  | (_, .clear) => inferInstanceAs (Decidable True)

theorem step_holds (b : IoBuffer) (queue : List Byte) (call : Garbage × Op)
    (h : b.Holds queue) (hfits : b.Fits call) :
    ∃ b', b.step call = some b' ∧ b'.Holds (queueStep queue call) := by
  obtain ⟨garbage, op⟩ := call
  cases op with
  | append bytes => exact h.append garbage hfits
  | write bytes committed =>
      obtain ⟨b', span, hspan, hholds, -, hroom⟩ := h.writableSpan garbage hfits.1
      obtain ⟨b'', hfill, hcommit⟩ := hholds.fill_commit hroom hfits.2
      refine ⟨_, ?_, hcommit⟩
      simp only [step, hspan, Option.bind_eq_bind, Option.bind_some, hfill]
      rfl
  | consume bytes => exact h.consume
  | reserve newCapacity => exact h.reserve garbage hfits
  | clear => exact ⟨_, rfl, h.clear⟩

theorem readable_eq_queue (garbage : Garbage) (capacity : ℕ) (calls : List (Garbage × Op))
    (hcapacity : capacity < 2 ^ 64) (hfits : Along step Fits (make garbage capacity) calls) :
    ∃ b, exec step (make garbage capacity) calls = some b ∧
      b.readableSpan = some (calls.foldl queueStep []) ∧
      b.readPos ≤ b.writePos ∧ b.writePos ≤ b.capacity := by
  obtain ⟨b, hexec, hholds⟩ := exec_simulates queueStep step_holds [] (holds_make hcapacity) hfits
  exact ⟨b, hexec, hholds.readableSpan, hholds.ordered, hholds.bounded⟩

/-- Growth, a consumed byte, a span that is committed in part, and a reallocation. -/
def sampleCalls : List (Garbage × Op) :=
  [(fun _ => 0, .append [1, 2, 3]), (fun _ => 0, .consume 1), (fun _ => 7, .write [4, 5, 6] 1),
    (fun _ => 9, .reserve 10)]

theorem readable_eq_queue_sampleCalls :
    sampleCalls.foldl queueStep [] = [2, 3, 4] ∧
      ∃ b, exec step (make (fun _ => 0) 2) sampleCalls = some b ∧
        b.readableSpan = some (sampleCalls.foldl queueStep []) ∧
        b.readPos ≤ b.writePos ∧ b.writePos ≤ b.capacity :=
  ⟨by decide, readable_eq_queue (fun _ => 0) 2 sampleCalls (by decide) (by decide)⟩

end IoBuffer

end Memory
end Katana
