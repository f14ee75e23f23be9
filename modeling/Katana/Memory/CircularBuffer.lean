import Katana.Concurrent.RingRefinement
import Katana.Library.WrappedStorage

/-!
# The circular buffer

`circular_buffer` with its two words that only grow.  The copies are loads and
stores that fail outside their block, so that a call without an answer has left
its buffers.  A call of `reserve` carries whether the memory it asks for can be
had; where it cannot, the call throws and the buffer stays as it is.
-/

namespace Katana
namespace Memory

open Library
open Concurrent (WORD nextPowerOfTwo)

/-- The difference of two words. -/
def wordSub (a b : ℕ) : ℕ :=
  (a + (WORD - b)) % WORD

structure CircularBuffer where
  buffer : List UInt8
  head : ℕ := 0
  tail : ℕ := 0
  mask : ℕ

namespace CircularBuffer

def make (capacity : ℕ) : CircularBuffer :=
  let actualCapacity := nextPowerOfTwo capacity
  { buffer := List.replicate actualCapacity 0
    mask := wordSub actualCapacity 1 }

def size (b : CircularBuffer) : ℕ :=
  wordSub b.tail b.head

def capacity (b : CircularBuffer) : ℕ :=
  b.buffer.length

def write (b : CircularBuffer) (data : List UInt8) : Option (CircularBuffer × ℕ) :=
  let available := wordSub b.capacity b.size
  let toWrite := min data.length available
  if toWrite = 0 then some (b, 0)
  else do
    let tailPos := b.tail &&& b.mask
    let firstPart := min toWrite (wordSub b.buffer.length tailPos)
    let buffer ← store b.buffer tailPos (data.take firstPart)
    let buffer ← (if toWrite > firstPart then
      store buffer 0 ((data.drop firstPart).take (toWrite - firstPart)) else some buffer)
    return ({ b with buffer := buffer, tail := (b.tail + toWrite) % WORD }, toWrite)

/-- The copies of `read` and `reserve`, to the front of `target`. -/
def copyOut (b : CircularBuffer) (count : ℕ) (target : List UInt8) : Option (List UInt8) := do
  let headPos := b.head &&& b.mask
  let firstPart := min count (wordSub b.buffer.length headPos)
  let front ← load b.buffer headPos firstPart
  let target ← store target 0 front
  if count > firstPart then
    let rest ← load b.buffer 0 (count - firstPart)
    store target firstPart rest
  else
    return target

def read (b : CircularBuffer) (data : List UInt8) :
    Option (CircularBuffer × ℕ × List UInt8) :=
  let toRead := min data.length b.size
  if toRead = 0 then some (b, 0, data)
  else do
    let data ← copyOut b toRead data
    return ({ b with head := (b.head + toRead) % WORD }, toRead, data)

def peek (b : CircularBuffer) : Option (List UInt8) :=
  if b.head = b.tail then some []
  else
    let headPos := b.head &&& b.mask
    let contiguous := min b.size (wordSub b.buffer.length headPos)
    load b.buffer headPos contiguous

def consume (b : CircularBuffer) (bytes : ℕ) : CircularBuffer :=
  { b with head := (b.head + min bytes b.size) % WORD }

def clear (b : CircularBuffer) : CircularBuffer :=
  { b with head := 0, tail := 0 }

def reserve (b : CircularBuffer) (newCapacity : ℕ) (allocated : Bool) : Option CircularBuffer :=
  if newCapacity ≤ b.capacity then some b
  else
    let actualCapacity := nextPowerOfTwo newCapacity
    -- A vector without elements takes no memory.
    if allocated = false ∧ actualCapacity ≠ 0 then some b
    else do
      let newBuffer := List.replicate actualCapacity 0
      let currentSize := b.size
      let newBuffer ← (if currentSize > 0 then copyOut b currentSize newBuffer else some newBuffer)
      return { buffer := newBuffer, mask := wordSub actualCapacity 1, tail := currentSize }

end CircularBuffer

inductive BufferCall where
  | write (data : List UInt8)
  | read (data : List UInt8)
  | peek
  | consume (bytes : UInt64)
  | reserve (newCapacity : UInt64) (allocated : Bool)
  | clear

inductive BufferAnswer where
  | done
  | written (count : ℕ)
  | filled (count : ℕ) (data : List UInt8)
  | seen (bytes : List UInt8)

def CircularBuffer.step (b : CircularBuffer) : BufferCall → Option (CircularBuffer × BufferAnswer)
  | .write data => (b.write data).map fun (b, count) => (b, .written count)
  | .read data => (b.read data).map fun (b, count, data) => (b, .filled count data)
  | .peek => b.peek.map fun bytes => (b, .seen bytes)
  | .consume bytes => some (b.consume bytes.toNat, .done)
  | .reserve newCapacity allocated =>
      (b.reserve newCapacity.toNat allocated).map fun b => (b, .done)
  | .clear => some (b.clear, .done)

/-! ## The bounded queue -/

/-- What a call leaves of the queue. -/
def queueAfter (capacity : ℕ) (queue : List UInt8) : BufferCall → List UInt8
  | .write data => queue ++ data.take (min data.length (capacity - queue.length))
  | .read data => queue.drop (min data.length queue.length)
  | .consume bytes => queue.drop (min bytes.toNat queue.length)
  | .clear => []
  | .peek | .reserve _ _ => queue

/-- The answer that the bounded queue gives. -/
def Answered (capacity : ℕ) (queue : List UInt8) : BufferCall → BufferAnswer → Prop
  | .write data, answer => answer = .written (min data.length (capacity - queue.length))
  | .read data, answer =>
      let count := min data.length queue.length
      answer = .filled count (queue.take count ++ data.drop count)
  | .peek, answer => ∃ bytes, answer = .seen bytes ∧ bytes <+: queue ∧ (bytes = [] → queue = [])
  | _, answer => answer = .done

namespace CircularBuffer

/-- The cells from the head to the tail hold the bytes of the queue. -/
structure Holds (b : CircularBuffer) (queue : List UInt8) : Prop where
  contents : (List.range b.size).map (fun i => b.buffer[(b.head + i) % WORD &&& b.mask]?) =
    queue.map some
  size : b.size = queue.length
  bounded : b.size ≤ b.capacity

/-- In a run of calls the buffer holds and answers as the queue, and its capacity
never shrinks. -/
def BoundedFifo : List UInt8 → CircularBuffer → List BufferCall → Prop
  | queue, b, [] => b.Holds queue
  | queue, b, call :: calls =>
      b.Holds queue ∧ ∃ b' answer, b.step call = some (b', answer) ∧
        Answered b.capacity queue call answer ∧ b.capacity ≤ b'.capacity ∧
        BoundedFifo (queueAfter b.capacity queue call) b' calls

/-! ## Masked words -/

theorem wordSub_eq {a b : ℕ} (hle : b ≤ a) (ha : a < WORD) : wordSub a b = a - b := by
  unfold wordSub
  rw [show a + (WORD - b) = a - b + WORD by omega, Nat.add_mod_right, Nat.mod_eq_of_lt (by omega)]

/-- The words keep `queue.length` apart, and the mask makes `2 ^ k` positions of them. -/
structure Ring (k : ℕ) (b : CircularBuffer) (queue : List UInt8) : Prop where
  word : k ≤ 63
  length : b.buffer.length = 2 ^ k
  mask : b.mask = 2 ^ k - 1
  head : b.head < WORD
  tail : b.tail = (b.head + queue.length) % WORD
  fits : queue.length ≤ 2 ^ k
  cells : around b.buffer (b.head % 2 ^ k) queue.length = queue

section Ring

variable {k : ℕ} {b : CircularBuffer} {queue : List UInt8}

theorem Ring.masked (h : b.Ring k queue) (i : ℕ) : i &&& b.mask = i % 2 ^ k := by
  rw [h.mask, Nat.and_two_pow_sub_one_eq_mod]

theorem Ring.mod_word (h : b.Ring k queue) (i : ℕ) : i % WORD % 2 ^ k = i % 2 ^ k :=
  Nat.mod_mod_of_dvd i (Nat.pow_dvd_pow 2 (by have := h.word; omega))

theorem Ring.position (h : b.Ring k queue) (i : ℕ) : i % 2 ^ k < b.buffer.length := by
  rw [h.length]
  exact Nat.mod_lt _ (Nat.two_pow_pos k)

theorem Ring.small (h : b.Ring k queue) : b.buffer.length < WORD :=
  h.length ▸ Concurrent.two_pow_lt_word h.word

theorem Ring.size_eq (h : b.Ring k queue) : b.size = queue.length := by
  have hfits := h.fits
  have hsmall := h.small
  have hhead := h.head
  rw [h.length] at hsmall
  unfold size wordSub
  rw [h.tail, Nat.mod_add_mod, show b.head + queue.length + (WORD - b.head) =
    queue.length + WORD by omega, Nat.add_mod_right, Nat.mod_eq_of_lt (by omega)]

theorem Ring.empty_iff (h : b.Ring k queue) : b.head = b.tail ↔ queue = [] := by
  have hfits := h.fits
  have hsmall := h.small
  have hhead := h.head
  rw [h.length] at hsmall
  rw [h.tail]
  constructor
  · intro heq
    have hsize := h.size_eq
    rw [size, h.tail, ← heq, wordSub_eq le_rfl hhead, Nat.sub_self] at hsize
    exact List.eq_nil_of_length_eq_zero hsize.symm
  · intro hqueue
    rw [hqueue, List.length_nil, Nat.add_zero, Nat.mod_eq_of_lt hhead]

theorem Ring.available (h : b.Ring k queue) :
    wordSub b.capacity b.size = b.capacity - queue.length := by
  have hfits := h.fits
  rw [← h.length] at hfits
  rw [h.size_eq]
  exact wordSub_eq hfits h.small

/-- The cells before the end of the vector. -/
theorem Ring.before_end (h : b.Ring k queue) (i n : ℕ) :
    min n (wordSub b.buffer.length (i &&& b.mask)) = beforeEnd b.buffer (i % 2 ^ k) n := by
  rw [h.masked, wordSub_eq (h.position i).le h.small, beforeEnd]

theorem Ring.take_queue (h : b.Ring k queue) {count : ℕ} (hcount : count ≤ queue.length) :
    around b.buffer (b.head % 2 ^ k) count = queue.take count := by
  conv_rhs => rw [← h.cells]
  rw [take_around (h.position _) (h.length ▸ h.fits) hcount]

theorem Ring.holds (h : b.Ring k queue) : b.Holds queue := by
  have hfits := h.fits
  rw [← h.length] at hfits
  refine ⟨?_, h.size_eq, h.size_eq ▸ hfits⟩
  rw [h.size_eq]
  apply List.ext_getElem?
  intro i
  rw [List.getElem?_map, List.getElem?_map]
  by_cases hi : i < queue.length
  · have hcell := getElem?_around (h.position b.head) (h.length ▸ h.fits) hi
    rw [h.cells, h.length, Nat.mod_add_mod] at hcell
    rw [List.getElem?_range hi, Option.map_some, h.masked, h.mod_word, ← hcell,
      List.getElem?_eq_getElem hi]
    rfl
  · rw [List.getElem?_eq_none (by rw [List.length_range]; omega),
      List.getElem?_eq_none (by omega)]
    rfl

end Ring

/-! ## The calls -/

section Calls

variable {k : ℕ} {b : CircularBuffer} {queue : List UInt8}

theorem length_copyOut {count : ℕ} {target target' : List UInt8}
    (h : b.copyOut count target = some target') : target'.length = target.length := by
  unfold copyOut at h
  dsimp only at h
  simp only [Option.bind_eq_bind, Option.bind_eq_some_iff] at h
  obtain ⟨front, -, stored, hstored, h⟩ := h
  rw [← length_of_store hstored]
  split at h
  next =>
    simp only [Option.bind_eq_some_iff] at h
    obtain ⟨rest, -, h⟩ := h
    exact length_of_store h
  next => rw [Option.some.inj h]

theorem ring_make {capacity : ℕ} (hcapacity : capacity ≤ 2 ^ 63) :
    ∃ k, (make capacity).Ring k [] := by
  obtain ⟨k, hk, hpower, -⟩ := Concurrent.nextPowerOfTwo_pow hcapacity
  have hsmall := Concurrent.two_pow_lt_word hk
  have hpos := Nat.two_pow_pos k
  refine ⟨k, hk, ?_, ?_, hsmall.trans' hpos, rfl, Nat.zero_le _, rfl⟩
  · rw [make, List.length_replicate, hpower]
  · show wordSub (nextPowerOfTwo capacity) 1 = 2 ^ k - 1
    rw [hpower, wordSub_eq hpos hsmall]

theorem Ring.copyOut_eq (h : b.Ring k queue) {count : ℕ} {target : List UInt8}
    (hcount : count ≤ queue.length) (htarget : count ≤ target.length) :
    b.copyOut count target = some (queue.take count ++ target.drop count) := by
  have hfits := h.fits
  have hlength := h.length
  have hpos := h.position b.head
  have htake := h.take_queue hcount
  have hbefore : beforeEnd b.buffer (b.head % 2 ^ k) count =
    min count (b.buffer.length - b.head % 2 ^ k) := rfl
  unfold copyOut
  unfold around at htake
  dsimp only
  rw [h.before_end, h.masked]
  generalize beforeEnd b.buffer (b.head % 2 ^ k) count = first at htake hbefore ⊢
  have hfront : (slice b.buffer (b.head % 2 ^ k) first).length = first := length_slice (by omega)
  have hinside : 0 + (slice b.buffer (b.head % 2 ^ k) first).length ≤ target.length := by omega
  have hstored : overwrite target 0 (queue.take count) = queue.take count ++ target.drop count := by
    rw [overwrite, List.length_take, Nat.min_eq_left hcount, Nat.zero_add]
    rfl
  simp only [load_eq (show b.head % 2 ^ k + first ≤ b.buffer.length by omega),
    Option.bind_eq_bind, Option.bind_some, store_eq hinside]
  split
  next hrest =>
    have hback : (slice b.buffer 0 (count - first)).length = count - first :=
      length_slice (by omega)
    have hfits : first + (slice b.buffer 0 (count - first)).length ≤
        (overwrite target 0 (slice b.buffer (b.head % 2 ^ k) first)).length := by
      rw [length_overwrite hinside]
      omega
    have hjoined : overwrite (overwrite target 0 (slice b.buffer (b.head % 2 ^ k) first)) first
        (slice b.buffer 0 (count - first)) = queue.take count ++ target.drop count := by
      rw [← hstored, ← htake, ← overwrite_append hinside, hfront, Nat.zero_add]
    rw [load_eq (by omega), Option.bind_some, store_eq hfits, hjoined]
  next hrest =>
    rw [show count - first = 0 by omega, slice_zero, List.append_nil] at htake
    rw [htake, hstored]
    rfl

/-- The head moves over the front of the queue. -/
theorem Ring.advance (h : b.Ring k queue) {count : ℕ} (hcount : count ≤ queue.length) :
    { b with head := (b.head + count) % WORD : CircularBuffer }.Ring k (queue.drop count) := by
  refine ⟨h.word, h.length, h.mask, Nat.mod_lt _ (by decide), ?_, ?_, ?_⟩
  · show b.tail = ((b.head + count) % WORD + (queue.drop count).length) % WORD
    rw [h.tail, List.length_drop, Nat.mod_add_mod]
    congr 1
    omega
  · have hfits := h.fits
    rw [List.length_drop]
    omega
  · show around b.buffer ((b.head + count) % WORD % 2 ^ k) (queue.drop count).length = _
    have hdrop := drop_around (h.position b.head) (h.length ▸ h.fits) hcount
    rw [h.cells, h.length, Nat.mod_add_mod] at hdrop
    rw [List.length_drop, h.mod_word, hdrop]

theorem Ring.write_eq (h : b.Ring k queue) (data : List UInt8) :
    ∃ b', b.write data = some (b', min data.length (b.capacity - queue.length)) ∧
      b'.Ring k (queue ++ data.take (min data.length (b.capacity - queue.length))) := by
  have hfits := h.fits
  have hlength := h.length
  unfold write
  dsimp only
  rw [h.available]
  have hcapacity : b.capacity = b.buffer.length := rfl
  generalize htoWrite : min data.length (b.capacity - queue.length) = toWrite
  have hchunk : (data.take toWrite).length = toWrite := by
    rw [List.length_take]
    omega
  split
  next hnone => exact ⟨b, by rw [hnone], by rwa [hnone, List.take_zero, List.append_nil]⟩
  next hsome =>
    obtain ⟨buffer, hstore, hbuffer, hcells⟩ := storeAround_behind (h.position b.head)
      (show queue.length + (data.take toWrite).length ≤ b.buffer.length by omega)
    have htail : b.tail % 2 ^ k = (b.head % 2 ^ k + queue.length) % 2 ^ k := by
      rw [h.tail, h.mod_word, Nat.mod_add_mod]
    rw [h.cells] at hcells
    rw [hlength, ← htail] at hstore
    unfold storeAround at hstore
    rw [h.before_end, h.masked]
    rw [hchunk] at hstore hcells
    have hfirst : beforeEnd b.buffer (b.tail % 2 ^ k) toWrite ≤ toWrite := Nat.min_le_left _ _
    generalize beforeEnd b.buffer (b.tail % 2 ^ k) toWrite = first at hstore hfirst ⊢
    rw [List.take_take, Nat.min_eq_left hfirst, Option.bind_eq_bind, Option.bind_eq_some_iff]
      at hstore
    obtain ⟨front, hfront, hrest⟩ := hstore
    rw [List.drop_take] at hrest
    refine ⟨{ b with buffer := buffer, tail := (b.tail + toWrite) % WORD }, ?_, ?_⟩
    · rw [hfront, Option.bind_eq_bind, Option.bind_some]
      split
      next => rw [hrest]; rfl
      next hall =>
        rw [show toWrite - first = 0 by omega, List.take_zero, store] at hrest
        rw [if_pos (by simp), overwrite_nil] at hrest
        rw [hrest]
        rfl
    · refine ⟨h.word, hbuffer.trans hlength, h.mask, h.head, ?_, ?_, ?_⟩
      · show (b.tail + toWrite) % WORD = _
        rw [h.tail, Nat.mod_add_mod, List.length_append, hchunk, Nat.add_assoc]
      · rw [List.length_append, hchunk]
        omega
      · rw [List.length_append, hchunk]
        exact hcells

theorem Ring.read_eq (h : b.Ring k queue) (data : List UInt8) :
    let count := min data.length queue.length
    ∃ b', b.read data = some (b', count, queue.take count ++ data.drop count) ∧
      b'.Ring k (queue.drop count) ∧ b'.capacity = b.capacity := by
  intro count
  have hcount : min data.length b.size = count := by rw [h.size_eq]
  unfold read
  rw [hcount]
  by_cases hnone : count = 0
  · refine ⟨b, ?_, ?_, rfl⟩
    · simp [hnone]
    · rwa [hnone, List.drop_zero]
  · refine ⟨_, ?_, h.advance (Nat.min_le_right _ _), rfl⟩
    rw [if_neg hnone, h.copyOut_eq (Nat.min_le_right _ _) (Nat.min_le_left _ _)]
    rfl

theorem Ring.peek_eq (h : b.Ring k queue) :
    ∃ bytes, b.peek = some bytes ∧ bytes <+: queue ∧ (bytes = [] → queue = []) := by
  unfold peek
  by_cases hempty : queue = []
  · exact ⟨[], by rw [if_pos (h.empty_iff.mpr hempty)], List.nil_prefix, fun _ => hempty⟩
  have hpos := h.position b.head
  have hlength : 0 < queue.length := List.length_pos_of_ne_nil hempty
  rw [if_neg (h.empty_iff.not.mpr hempty)]
  dsimp only
  rw [h.before_end, h.masked, h.size_eq]
  have hbefore : beforeEnd b.buffer (b.head % 2 ^ k) queue.length =
    min queue.length (b.buffer.length - b.head % 2 ^ k) := rfl
  have hcells := h.cells
  unfold around at hcells
  generalize beforeEnd b.buffer (b.head % 2 ^ k) queue.length = first at hbefore hcells ⊢
  have hinside : b.head % 2 ^ k + first ≤ b.buffer.length := by omega
  refine ⟨_, load_eq hinside, ⟨_, hcells⟩, fun hnil => ?_⟩
  have hslice := length_slice hinside
  rw [hnil, List.length_nil] at hslice
  omega

theorem Ring.clear (h : b.Ring k queue) : b.clear.Ring k [] := by
  refine ⟨h.word, h.length, h.mask, (by decide : 0 < WORD), rfl, Nat.zero_le _, ?_⟩
  show around b.buffer (0 % 2 ^ k) 0 = []
  rw [around, Nat.zero_sub, slice_zero, List.append_nil, beforeEnd, Nat.zero_min, slice_zero]

theorem Ring.reserve_eq (h : b.Ring k queue) {newCapacity : ℕ} (hsmall : newCapacity ≤ 2 ^ 63)
    (allocated : Bool) :
    ∃ b' k', b.reserve newCapacity allocated = some b' ∧ b'.Ring k' queue ∧
      b.capacity ≤ b'.capacity := by
  unfold reserve
  split
  next => exact ⟨b, k, rfl, h, le_rfl⟩
  next hlarger =>
    obtain ⟨k', hk', hpower, hle⟩ := Concurrent.nextPowerOfTwo_pow hsmall
    dsimp only
    rw [hpower]
    split
    next => exact ⟨b, k, rfl, h, le_rfl⟩
    next =>
      have hcapacity : b.capacity = 2 ^ k := h.length
      have hfits := h.fits
      have hroom : queue.length ≤ (List.replicate (2 ^ k') (0 : UInt8)).length := by
        rw [List.length_replicate]
        omega
      let newBuffer := queue ++ (List.replicate (2 ^ k') 0).drop queue.length
      have hnew : newBuffer.length = 2 ^ k' := by
        rw [List.length_append, List.length_drop]
        rw [List.length_replicate] at hroom ⊢
        omega
      have hcopied : (if b.size > 0 then b.copyOut b.size (List.replicate (2 ^ k') 0)
          else some (List.replicate (2 ^ k') 0)) = some newBuffer := by
        rw [h.size_eq]
        split
        next => rw [h.copyOut_eq le_rfl hroom, List.take_length]
        next hnone =>
          have hqueue := List.eq_nil_of_length_eq_zero (Nat.eq_zero_of_not_pos hnone)
          simp [newBuffer, hqueue]
      refine ⟨{ buffer := newBuffer, mask := 2 ^ k' - 1, tail := queue.length }, k', ?_, ?_, ?_⟩
      · rw [hcopied, h.size_eq, wordSub_eq (Nat.two_pow_pos k') (Concurrent.two_pow_lt_word hk')]
        rfl
      · have hword := Concurrent.two_pow_lt_word hk'
        rw [List.length_replicate] at hroom
        refine ⟨hk', hnew, rfl, (by decide : 0 < WORD), ?_, hroom, ?_⟩
        · show queue.length = (0 + queue.length) % WORD
          rw [Nat.zero_add, Nat.mod_eq_of_lt (by omega)]
        · show around newBuffer (0 % 2 ^ k') queue.length = queue
          rw [Nat.zero_mod, around, beforeEnd, hnew, Nat.sub_zero, Nat.min_eq_left hroom,
            Nat.sub_self, slice_zero, List.append_nil, slice, List.drop_zero, List.take_left]
      · show b.capacity ≤ newBuffer.length
        omega

/-- A request that is rounded to nothing does not keep the buffer. -/
theorem Ring.reserve_wraps (h : b.Ring k queue) {newCapacity : ℕ} (hlarge : 2 ^ 63 < newCapacity)
    (hword : newCapacity < WORD) (allocated : Bool) :
    ∀ b', b.reserve newCapacity allocated = some b' → b'.capacity = 0 ∧ 0 < b.capacity := by
  have hcapacity : b.capacity = 2 ^ k := h.length
  have hpow : 2 ^ k ≤ 2 ^ 63 := Nat.pow_le_pow_right (by omega) h.word
  have hpos := Nat.two_pow_pos k
  unfold reserve
  dsimp only
  rw [if_neg (by omega), Concurrent.nextPowerOfTwo_wraps hword hlarge, if_neg (by simp)]
  intro b' hb'
  rw [Option.bind_eq_bind, Option.bind_eq_some_iff] at hb'
  obtain ⟨newBuffer, hcopied, hb'⟩ := hb'
  have hnew : newBuffer.length = 0 := by
    split at hcopied
    next => exact length_copyOut hcopied
    next => rw [← Option.some.inj hcopied]; rfl
  rw [← Option.some.inj hb']
  exact ⟨hnew, by omega⟩

/-- A request whose next power of two is a word. -/
def Rounds : BufferCall → Prop
  | .reserve newCapacity _ => newCapacity.toNat ≤ 2 ^ 63
  | _ => True

theorem Ring.step (h : b.Ring k queue) {call : BufferCall} (hcall : Rounds call) :
    ∃ b' answer k', b.step call = some (b', answer) ∧ Answered b.capacity queue call answer ∧
      b.capacity ≤ b'.capacity ∧ b'.Ring k' (queueAfter b.capacity queue call) := by
  have hcapacity {b' : CircularBuffer} {queue' : List UInt8} (h' : b'.Ring k queue') :
      b.capacity ≤ b'.capacity := (h.length.trans h'.length.symm).le
  cases call with
  | write data =>
    obtain ⟨b', hwrite, hring⟩ := h.write_eq data
    exact ⟨b', _, k, by rw [CircularBuffer.step, hwrite]; rfl, rfl, hcapacity hring, hring⟩
  | read data =>
    obtain ⟨b', hread, hring, hsame⟩ := h.read_eq data
    exact ⟨b', _, k, by rw [CircularBuffer.step, hread]; rfl, rfl, hsame.ge, hring⟩
  | peek =>
    obtain ⟨bytes, hpeek, hprefix, hnonempty⟩ := h.peek_eq
    exact ⟨b, _, k, by rw [CircularBuffer.step, hpeek]; rfl, ⟨bytes, rfl, hprefix, hnonempty⟩,
      le_rfl, h⟩
  | consume bytes =>
    have hring := h.advance (Nat.min_le_right bytes.toNat queue.length)
    refine ⟨b.consume bytes.toNat, .done, k, rfl, rfl, le_rfl, ?_⟩
    unfold consume
    rwa [h.size_eq]
  | reserve newCapacity allocated =>
    obtain ⟨b', k', hreserve, hring, hle⟩ := h.reserve_eq hcall allocated
    exact ⟨b', .done, k', by rw [CircularBuffer.step, hreserve]; rfl, rfl, hle, hring⟩
  | clear => exact ⟨b.clear, .done, k, rfl, rfl, le_rfl, h.clear⟩

theorem Ring.step_shrinks (h : b.Ring k queue) {call : BufferCall} (hcall : ¬Rounds call)
    {b' : CircularBuffer} {answer : BufferAnswer} (hstep : b.step call = some (b', answer)) :
    b'.capacity < b.capacity := by
  cases call with
  | reserve newCapacity allocated =>
    unfold CircularBuffer.step at hstep
    obtain ⟨kept, hreserve, hsame⟩ := Option.map_eq_some_iff.mp hstep
    obtain ⟨hnone, hsome⟩ :=
      h.reserve_wraps (Nat.lt_of_not_le hcall) newCapacity.toNat_lt allocated kept hreserve
    rw [← (Prod.mk.inj hsame).1, hnone]
    exact hsome
  | write | read | peek | consume | clear => exact absurd trivial hcall

theorem Ring.boundedFifo_iff (h : b.Ring k queue) (calls : List BufferCall) :
    BoundedFifo queue b calls ↔ ∀ call ∈ calls, Rounds call := by
  induction calls generalizing k b queue with
  | nil => simpa [BoundedFifo] using h.holds
  | cons call calls ih =>
    rw [List.forall_mem_cons]
    constructor
    · rintro ⟨-, b', answer, hstep, -, hgrows, hrest⟩
      by_cases hcall : Rounds call
      · obtain ⟨next, answer', k', hnext, -, -, hring⟩ := h.step hcall
        rw [hstep, Option.some.injEq, Prod.mk.injEq] at hnext
        exact ⟨hcall, (ih (hnext.1 ▸ hring)).mp hrest⟩
      · exact absurd hgrows (Nat.not_le.mpr (h.step_shrinks hcall hstep))
    · rintro ⟨hcall, hcalls⟩
      obtain ⟨b', answer, k', hstep, hanswer, hgrows, hring⟩ := h.step hcall
      exact ⟨h.holds, b', answer, hstep, hanswer, hgrows, (ih hring).mpr hcalls⟩

end Calls

/-- Over every run of calls the buffer is the bounded queue exactly if no `reserve`
asks for more than the greatest power of two. -/
theorem boundedFifo_exact_iff {capacity : ℕ} (hcapacity : capacity ≤ 2 ^ 63)
    (calls : List BufferCall) :
    BoundedFifo [] (make capacity) calls ↔
      ∀ newCapacity allocated, .reserve newCapacity allocated ∈ calls →
        newCapacity.toNat ≤ 2 ^ 63 := by
  obtain ⟨k, hring⟩ := ring_make hcapacity
  rw [hring.boundedFifo_iff]
  constructor
  · intro h newCapacity allocated hmem
    exact h _ hmem
  · intro h call hmem
    cases call with
    | reserve newCapacity allocated => exact h newCapacity allocated hmem
    | write | read | peek | consume | clear => trivial

theorem boundedFifo_exact_iff_reserve :
    4 ≤ 2 ^ 63 ∧
    (BoundedFifo [] (make 4) [.write [1, 2, 3], .reserve 16 true, .read [0, 0]] ↔
      ∀ newCapacity allocated,
        .reserve newCapacity allocated ∈
          [BufferCall.write [1, 2, 3], .reserve 16 true, .read [0, 0]] →
        newCapacity.toNat ≤ 2 ^ 63) :=
  ⟨by decide, boundedFifo_exact_iff (by decide) _⟩

/-- A request beyond the greatest power of two leaves a buffer without cells. -/
theorem hugeReserve_shrinks :
    ¬BoundedFifo [] (make 4) [.reserve 9223372036854775809 true] := by
  obtain ⟨k, hring⟩ := ring_make (show 4 ≤ 2 ^ 63 by decide)
  rw [hring.boundedFifo_iff, List.forall_mem_singleton]
  show ¬(9223372036854775809 : UInt64).toNat ≤ 2 ^ 63
  decide

end CircularBuffer

end Memory
end Katana
