import Katana.Concurrent.BatchQueue
import Katana.Concurrent.RingSteps
import Katana.Library.SequencedRing

/-!
# The ring buffer queue in the hands of one thread

One thread calls the four functions in turn.  Beside the queue runs a bounded list, which
is given its answer at the call.  The queue gives the same answers as long as no value is
pushed with `try_push` into a full queue of one cell, and the difference of the two words
that the functions compare fits into an `intptr_t`.
-/

namespace Katana
namespace Concurrent

open Library RingBufferQueue
open QueueSystem (SameRing sameRing_choose)

variable {T : Type*}

/-- What a queue of bounded capacity is for. -/
structure BoundedFifo (T : Type*) where
  contents : List T := []
  /-- Everything that has been taken, in this order. -/
  delivered : List T := []
  /-- How many values the last call has stored or taken. -/
  answer : ℕ := 0

namespace BoundedFifo

def push (capacity : ℕ) (values : List T) (f : BoundedFifo T) : BoundedFifo T :=
  { f with
    contents := f.contents ++ values.take (capacity - f.contents.length)
    answer := min values.length (capacity - f.contents.length) }

def pop (maxCount : ℕ) (f : BoundedFifo T) : BoundedFifo T :=
  { contents := f.contents.drop maxCount
    delivered := f.delivered ++ f.contents.take maxCount
    answer := min maxCount f.contents.length }

def call (capacity : ℕ) (f : BoundedFifo T) : QueueCall T → BoundedFifo T
  | .tryPush value => f.push capacity [value]
  | .tryPop => f.pop 1
  | .pushBatch values => f.push capacity values
  | .popBatch maxCount => f.pop maxCount

/-- A single push is refused exactly when as many values are stored as there is room for. -/
theorem call_tryPush (capacity : ℕ) (f : BoundedFifo T) (value : T) :
    f.call capacity (.tryPush value) =
      if f.contents.length < capacity then
        { f with contents := f.contents ++ [value], answer := 1 }
      else { f with answer := 0 } := by
  rw [show f.call capacity (.tryPush value) = f.push capacity [value] from rfl, push]
  split
  next hroom =>
    rw [List.take_of_length_le (by simp; omega), List.length_singleton, min_eq_left (by omega)]
  next hfull =>
    rw [Nat.sub_eq_zero_of_le (not_lt.mp hfull), List.take_zero, List.append_nil, Nat.min_zero]

/-- A single pop takes the oldest value, and is refused exactly when there is none. -/
theorem call_tryPop (capacity : ℕ) (f : BoundedFifo T) :
    f.call capacity .tryPop =
      match f.contents with
      | [] => { f with answer := 0 }
      | v :: rest => { contents := rest, delivered := f.delivered ++ [v], answer := 1 } := by
  rw [show f.call capacity .tryPop = f.pop 1 from rfl, pop]
  cases hcontents : f.contents with
  | nil =>
      rw [List.drop_nil, List.take_nil, List.append_nil, List.length_nil, Nat.min_zero]
  | cons v rest =>
      rw [List.length_cons, min_eq_left (by omega)]
      rfl

end BoundedFifo

/-- How many values a call has stored or taken that has come to this place. -/
def BatchPc.result : BatchPc T → ℕ
  | .single (.returned result) => result.toNat
  | .counted result => result
  | _ => 0

/-- The queue with its only thread, and the list that it should be. -/
structure SoloSystem (T : Type*) where
  queue : RingBufferQueue T
  pc : BatchPc T := .single .idle
  history : History T := {}
  fifo : BoundedFifo T := {}

inductive SoloLabel (T : Type*) where
  | call (operation : QueueCall T)
  | step (spurious : Bool)

namespace SoloSystem

def step (t : ℕ) (s : SoloSystem T) : SoloLabel T → Option (SoloSystem T)
  | .call operation =>
      if s.pc.outside then
        some { s with pc := operation.start, fifo := s.fifo.call s.queue.capacity operation }
      else none
  | .step spurious =>
      (advanceBatch t spurious s.queue s.history s.pc).map fun result =>
        { s with queue := result.1, history := result.2.1, pc := result.2.2 }

def initial (capacity : ℕ) (enableSpscFastPath : Bool) : SoloSystem T :=
  { queue := .create capacity enableSpscFastPath }

/-- The difference of the two words is a number of type `intptr_t`. -/
def Comparable (q : RingBufferQueue T) : BatchPc T → Prop
  | .single (.loadSequence op index) =>
      -2 ^ 63 ≤ signedDiff (q.sequence (q.slot index)) (ready index op.side) ∧
        signedDiff (q.sequence (q.slot index)) (ready index op.side) < 2 ^ 63
  | _ => True

/-- The only cell is not pushed into while it is full. -/
def Spares (q : RingBufferQueue T) : QueueCall T → Prop
  | .tryPush _ => ¬ (q.capacity = 1 ∧ q.size = 1)
  | _ => True

def Meets (s : SoloSystem T) : SoloLabel T → Prop
  | .call operation => Spares s.queue operation
  | .step _ => Comparable s.queue s.pc

/-- Whenever no call is on its way, the queue has done what the list has done. -/
structure Agrees (s : SoloSystem T) : Prop where
  answer : s.pc.result = s.fifo.answer
  delivered : s.history.taken.map (·.2) = s.fifo.delivered.map some
  size : s.queue.size = s.fifo.contents.length
  bounded : s.fifo.contents.length ≤ s.queue.capacity

/-- So many steps whose exchanges do not fail for no reason end the call. -/
def Ends (t : ℕ) (s : SoloSystem T) : Prop :=
  ∃ n, Along (step t) Meets s (List.replicate n (.step false)) →
    ∃ final, exec (step t) s (List.replicate n (.step false)) = some final ∧
      final.pc.outside = true

/-! ## What holds at each place -/

/-- The ring holds `contents` from position `base` on, and the indices show these
positions. -/
structure Holds (k : ℕ) (q : RingBufferQueue T) (base moved : ℕ) (contents : List T)
    (tail head : ℕ) : Prop where
  mask : q.mask + 1 = 2 ^ k
  ring : SequencedRing (2 ^ k) WORD q.sequence q.storage base moved contents
  tail : q.tail = tail % WORD
  head : q.head = head % WORD

/-- Queue and list agree between two calls. -/
structure AtRest (k : ℕ) (q : RingBufferQueue T) (history : History T) (f : BoundedFifo T)
    (base : ℕ) : Prop where
  holds : Holds k q base 0 f.contents base (base + f.contents.length)
  delivered : history.taken.map (·.2) = f.delivered.map some

/-- The list has its answer, and the queue stands as it did at the call. -/
structure Asked (k : ℕ) (q : RingBufferQueue T) (history : History T) (fifo : BoundedFifo T)
    (operation : QueueCall T) (f : BoundedFifo T) (base : ℕ) : Prop where
  rest : AtRest k q history f base
  called : fifo = f.call (2 ^ k) operation
  spared : ∀ value, operation = .tryPush value → k = 0 → f.contents = []

/-- The values `pending` are still to be stored, from position `index` on; `head_` is
`shown` positions further. -/
structure Storing (k : ℕ) (q : RingBufferQueue T) (history : History T) (fifo : BoundedFifo T)
    (pending : List T) (index shown total base : ℕ) (contents : List T) : Prop where
  holds : Holds k q base 0 contents base (base + contents.length + shown)
  index : index = (base + contents.length) % WORD
  fits : contents.length + pending.length ≤ 2 ^ k
  becomes : fifo.contents = contents ++ pending
  delivered : history.taken.map (·.2) = fifo.delivered.map some
  answer : fifo.answer = total

/-- The first `left` values are still to be taken, and `moved` of them have been moved out;
`tail_` is `shown` positions further. -/
structure Taking (k : ℕ) (q : RingBufferQueue T) (history : History T) (fifo : BoundedFifo T)
    (moved index left shown total base : ℕ) (contents : List T) : Prop where
  holds : Holds k q base moved contents (base + shown) (base + contents.length)
  index : index = base % WORD
  positive : 0 < left
  enough : left ≤ contents.length
  becomes : fifo.contents = contents.drop left
  delivered : history.taken.map (·.2) ++ ((contents.take left).drop moved).map some =
    fifo.delivered.map some
  answer : fifo.answer = total

/-- The ring is done and one of the indices is not. -/
structure Lagging (k : ℕ) (q : RingBufferQueue T) (history : History T) (fifo : BoundedFifo T)
    (op : Op T) (index base tail head : ℕ) : Prop where
  holds : Holds k q base 0 fifo.contents tail head
  push : op.side = .producer →
    index = head % WORD ∧ tail = base ∧ head + 1 = base + fifo.contents.length
  pop : op.side = .consumer →
    index = tail % WORD ∧ tail + 1 = base ∧ head = base + fifo.contents.length
  delivered : history.taken.map (·.2) = fifo.delivered.map some
  answer : fifo.answer = 1

end SoloSystem

def Op.operation : Op T → QueueCall T
  | .push value => .tryPush value
  | .pop => .tryPop

namespace SoloSystem

/-- The slot in front of the operation is its to use. -/
def Possible (k : ℕ) (f : BoundedFifo T) : Op T → Prop
  | .push _ => f.contents.length < 2 ^ k
  | .pop => f.contents ≠ []

def Stage (k : ℕ) (q : RingBufferQueue T) (history : History T) (fifo : BoundedFifo T) :
    BatchPc T → Prop
  | .single .idle => ∃ base, AtRest k q history fifo base ∧ fifo.answer = 0
  | .single (.returned result) =>
      ∃ base, AtRest k q history fifo base ∧ fifo.answer = result.toNat
  | .counted result => ∃ base, AtRest k q history fifo base ∧ fifo.answer = result
  | .single (.choosing _ op) => ∃ f base, Asked k q history fifo op.operation f base
  | .single (.loadIndex op) => ∃ f base, Asked k q history fifo op.operation f base
  | .single (.spscLoadIndex op) => ∃ f base, Asked k q history fifo op.operation f base
  | .single (.loadSequence op index) =>
      (∃ f base, Asked k q history fifo op.operation f base) ∧ index = q.index op.side
  | .single (.spscLoadSequence op index) =>
      (∃ f base, Asked k q history fifo op.operation f base) ∧ index = q.index op.side
  | .single (.exchange op index) =>
      ∃ f base, Asked k q history fifo op.operation f base ∧ index = q.index op.side ∧
        Possible k f op
  | .single (.move (.push value) index) =>
      ∃ base contents, Storing k q history fifo [value] index 1 1 base contents
  | .single (.storeSequence (.push value) index) =>
      ∃ base contents, Storing k q history fifo [value] index 1 1 base contents ∧
        q.storage (q.slot index) = some value
  | .single (.spscMove (.push value) index) =>
      ∃ base contents, Storing k q history fifo [value] index 0 1 base contents
  | .single (.spscStoreSequence (.push value) index) =>
      ∃ base contents, Storing k q history fifo [value] index 0 1 base contents ∧
        q.storage (q.slot index) = some value
  | .single (.move .pop index) =>
      ∃ base contents, Taking k q history fifo 0 index 1 1 1 base contents
  | .single (.storeSequence .pop index) =>
      ∃ base contents, Taking k q history fifo 1 index 1 1 1 base contents
  | .single (.spscMove .pop index) =>
      ∃ base contents, Taking k q history fifo 0 index 1 0 1 base contents
  | .single (.spscStoreSequence .pop index) =>
      ∃ base contents, Taking k q history fifo 1 index 1 0 1 base contents
  | .single (.spscStoreIndex op index) =>
      ∃ base tail head, Lagging k q history fifo op index base tail head
  | .pushLoadHead values => ∃ f base, Asked k q history fifo (.pushBatch values) f base
  | .pushLoadTail values head =>
      (∃ f base, Asked k q history fifo (.pushBatch values) f base) ∧ head = q.head
  | .pushExchange values head toPush =>
      ∃ f base, Asked k q history fifo (.pushBatch values) f base ∧ head = q.head ∧
        toPush = min values.length (2 ^ k - f.contents.length) ∧ 0 < toPush
  | .pushMove pending index toPush =>
      pending ≠ [] ∧
        ∃ base contents,
          Storing k q history fifo pending index pending.length toPush base contents
  | .pushStoreSequence pending index toPush =>
      pending ≠ [] ∧
        ∃ base contents,
          Storing k q history fifo pending index pending.length toPush base contents ∧
            q.storage (q.slot index) = pending.head?
  | .popLoadTail maxCount => ∃ f base, Asked k q history fifo (.popBatch maxCount) f base
  | .popLoadHead maxCount tail =>
      (∃ f base, Asked k q history fifo (.popBatch maxCount) f base) ∧ tail = q.tail
  | .popLoadSequence maxCount tail toPop i =>
      ∃ f base, Asked k q history fifo (.popBatch maxCount) f base ∧ tail = q.tail ∧
        toPop = min maxCount f.contents.length ∧ i < toPop
  | .popExchange maxCount tail toPop =>
      ∃ f base, Asked k q history fifo (.popBatch maxCount) f base ∧ tail = q.tail ∧
        toPop = min maxCount f.contents.length ∧ 0 < toPop
  | .popMove index left toPop =>
      ∃ base contents, Taking k q history fifo 0 index left left toPop base contents
  | .popStoreSequence index left toPop =>
      ∃ base contents, Taking k q history fifo 1 index left left toPop base contents

end SoloSystem

/-! ## How far a call is from its end -/

def Choice.rank : Choice → ℕ
  | .seenProducers => 9
  | .seenConsumers => 8
  | .markSeen => 7
  | .markLoad => 6
  | .markExchange => 5
  | .markStore => 4
  | .availableProducers => 3
  | .availableConsumers => 2
  | .availableOwn => 1
  | .availableOther => 0

def Pc.rank : Pc T → ℕ
  | .idle | .returned _ => 0
  | .storeSequence _ _ | .spscStoreIndex _ _ => 1
  | .move _ _ | .spscStoreSequence _ _ => 2
  | .exchange _ _ | .spscMove _ _ => 3
  | .loadSequence _ _ | .spscLoadSequence _ _ => 4
  | .loadIndex _ | .spscLoadIndex _ => 5
  | .choosing choice _ => 6 + choice.rank

def BatchPc.rank : BatchPc T → ℕ
  | .single pc => pc.rank
  | .counted _ => 0
  | .pushStoreSequence pending _ _ => 2 * pending.length
  | .pushMove pending _ _ => 2 * pending.length + 1
  | .pushExchange values _ _ => 2 * values.length + 2
  | .pushLoadTail values _ => 2 * values.length + 3
  | .pushLoadHead values => 2 * values.length + 4
  | .popStoreSequence _ left _ => 2 * left
  | .popMove _ left _ => 2 * left + 1
  | .popExchange _ _ toPop => 2 * toPop + 2
  | .popLoadSequence _ _ toPop i => 2 * toPop + 2 + (toPop - i)
  | .popLoadHead maxCount _ => 3 * maxCount + 3
  | .popLoadTail maxCount => 3 * maxCount + 4

/-! ## Words -/

theorem slot_word {k : ℕ} {q : RingBufferQueue T} (hmask : q.mask + 1 = 2 ^ k) (hk63 : k ≤ 63)
    (i j : ℕ) : q.slot (i % WORD + j) = (i + j) % 2 ^ k := by
  have hdvd : 2 ^ k ∣ WORD := Nat.pow_dvd_pow 2 (by omega)
  rw [slot_eq hmask, Nat.add_mod, Nat.mod_mod_of_dvd _ hdvd, ← Nat.add_mod]

theorem word_sub {size a b : ℕ} (hle : b ≤ a) (hlt : a - b < size) :
    (a % size + (size - b % size)) % size = a - b := by
  have hb : b % size ≤ size := (Nat.mod_lt _ (by omega)).le
  have hsum : (a % size + (size - b % size)) + b % size = a % size + size := by omega
  have hmod : (a % size + (size - b % size)) + b ≡ (a - b) + b [MOD size] := by
    calc (a % size + (size - b % size)) + b
        ≡ (a % size + (size - b % size)) + b % size [MOD size] :=
          Nat.ModEq.add_left _ (Nat.mod_modEq b size).symm
      _ = a % size + size := hsum
      _ ≡ a % size [MOD size] := Nat.add_modEq_right
      _ ≡ a [MOD size] := Nat.mod_modEq a size
      _ = (a - b) + b := (Nat.sub_add_cancel hle).symm
  have hcancel := Nat.ModEq.add_right_cancel' b hmod
  exact Nat.mod_eq_of_modEq hcancel hlt

theorem word_ne {a b : ℕ} (hlt : a < b) (hnear : b < a + 2 ^ 64) : a % WORD ≠ b % WORD := by
  rw [show WORD = 2 ^ 64 from rfl]
  omega

/-- A difference that fits is the difference of the two positions. -/
theorem signedDiff_words {a b : ℕ} (hle : a ≤ b) (hnear : b < a + 2 ^ 63)
    (hfits : -2 ^ 63 ≤ signedDiff (a % WORD) (b % WORD) ∧
      signedDiff (a % WORD) (b % WORD) < 2 ^ 63) :
    signedDiff (a % WORD) (b % WORD) = (a : ℤ) - b := by
  have hword : WORD = 2 ^ 64 := rfl
  rw [hword] at hfits ⊢
  unfold signedDiff at hfits ⊢
  omega

namespace SoloSystem

section

variable {k : ℕ} {q q' : RingBufferQueue T} {history history' : History T} {f fifo : BoundedFifo T}
variable {base moved tail head index : ℕ} {contents : List T}

theorem Holds.same {t : ℕ} (h : Holds k q base moved contents tail head) (hsame : SameRing t q q') :
    Holds k q' base moved contents tail head where
  mask := hsame.mask ▸ h.mask
  ring := by
    rw [hsame.sequence, hsame.storage]
    exact h.ring
  tail := hsame.tail.trans h.tail
  head := hsame.head.trans h.head

theorem Asked.same {t : ℕ} {operation : QueueCall T}
    (h : Asked k q history fifo operation f base) (hsame : SameRing t q q') :
    Asked k q' history fifo operation f base where
  rest := ⟨h.rest.holds.same hsame, h.rest.delivered⟩
  called := h.called
  spared := h.spared

/-- The queue is at rest with a list that differs from the old one at most in its answer. -/
theorem AtRest.answered (h : AtRest k q history f base) (hcontents : fifo.contents = f.contents)
    (hdelivered : fifo.delivered = f.delivered) : AtRest k q history fifo base where
  holds := by
    rw [hcontents]
    exact h.holds
  delivered := by
    rw [hdelivered]
    exact h.delivered

/-! ## Storing -/

theorem push_take (values : List T) (room : ℕ) :
    values.take room = values.take (min values.length room) := by
  rw [List.take_eq_take_iff]
  omega

/-- The exchange at `head_`, or the decision of the single producer. -/
theorem AtRest.storing {values : List T} {n shown : ℕ} (h : AtRest k q history f base)
    (hfifo : fifo = f.push (2 ^ k) values)
    (hn : n = min values.length (2 ^ k - f.contents.length)) (hindex : index = q.head)
    (hq' : Holds k q' base 0 f.contents base (base + f.contents.length + shown)) :
    Storing k q' history fifo (values.take n) index shown n base f.contents where
  holds := hq'
  index := hindex.trans h.holds.head
  fits := by
    have := h.holds.ring.fits
    rw [List.length_take]
    omega
  becomes := by
    rw [hfifo, hn, ← push_take]
    rfl
  delivered := by
    rw [hfifo]
    exact h.delivered
  answer := by
    rw [hfifo, hn]
    rfl

theorem Storing.construct {value : T} {rest : List T} {shown total : ℕ} (hk63 : k ≤ 63)
    (h : Storing k q history fifo (value :: rest) index shown total base contents) :
    Storing k (moveValue (.push value) index q history).1
        (moveValue (.push value) index q history).2 fifo (value :: rest) index shown total base
        contents ∧
      (moveValue (.push value) index q history).1.storage
        ((moveValue (.push value) index q history).1.slot index) = some value := by
  have hslot : q.slot index = (base + contents.length) % 2 ^ k := by
    rw [h.index]
    exact slot_word h.holds.mask hk63 (base + contents.length) 0
  constructor
  · constructor
    · constructor
      · exact h.holds.mask
      · have hroom : contents.length < 2 ^ k := by
          have := h.fits
          rw [List.length_cons] at this
          omega
        have hring := h.holds.ring.construct hroom (some value)
        rw [← hslot] at hring
        exact hring
      · exact h.holds.tail
      · exact h.holds.head
    · exact h.index
    · exact h.fits
    · exact h.becomes
    · exact h.delivered
    · exact h.answer
  · exact Function.update_self ..

/-- The slot goes over to the consumers. -/
theorem Storing.publish {value : T} {rest : List T} {shown total : ℕ} (hk63 : k ≤ 63)
    (h : Storing k q history fifo (value :: rest) index shown total base contents)
    (hcell : q.storage (q.slot index) = some value) :
    Holds k (handOver (.push value) index q history).1 base 0 (contents ++ [value]) base
      (base + contents.length + shown) := by
  have hslot : q.slot index = (base + contents.length) % 2 ^ k := by
    rw [h.index]
    exact slot_word h.holds.mask hk63 (base + contents.length) 0
  have hafter : (index + 1) % WORD = (base + contents.length + 1) % WORD := by
    rw [h.index, Nat.mod_add_mod]
  have hroom : contents.length < 2 ^ k := by
    have := h.fits
    rw [List.length_cons] at this
    omega
  rw [hslot] at hcell
  have hring := h.holds.ring.publish hroom hcell
  rw [← hslot, ← hafter] at hring
  exact ⟨h.holds.mask, hring, h.holds.tail, h.holds.head⟩

/-- All values are stored. -/
theorem Storing.finished {value : T} {total : ℕ}
    (h : Storing k q history fifo [value] index 1 total base contents)
    (hq' : Holds k q' base 0 (contents ++ [value]) base (base + contents.length + 1))
    (htaken : history'.taken = history.taken) : AtRest k q' history' fifo base where
  holds := by
    rw [h.becomes]
    rw [List.length_append, List.length_singleton, ← Nat.add_assoc]
    exact hq'
  delivered := htaken ▸ h.delivered

/-- The next value is to be stored. -/
theorem Storing.further {value : T} {rest : List T} {total : ℕ}
    (h : Storing k q history fifo (value :: rest) index (value :: rest).length total base contents)
    (hq' : Holds k q' base 0 (contents ++ [value]) base
      (base + contents.length + (value :: rest).length))
    (htaken : history'.taken = history.taken) :
    Storing k q' history' fifo rest ((index + 1) % WORD) rest.length total base
      (contents ++ [value]) where
  holds := by
    rw [List.length_append, List.length_singleton]
    rw [List.length_cons, Nat.add_comm rest.length 1, ← Nat.add_assoc] at hq'
    rwa [← Nat.add_assoc]
  index := by
    rw [h.index, Nat.mod_add_mod, List.length_append, List.length_singleton, Nat.add_assoc]
  fits := by
    have := h.fits
    rw [List.length_cons] at this
    rw [List.length_append, List.length_singleton]
    omega
  becomes := by
    rw [h.becomes, List.append_assoc, List.singleton_append]
  delivered := htaken ▸ h.delivered
  answer := h.answer

/-! ## Taking -/

/-- The exchange at `tail_`, or the decision of the single consumer. -/
theorem AtRest.taking {maxCount n shown : ℕ} (h : AtRest k q history f base)
    (hfifo : fifo = f.pop maxCount) (hn : n = min maxCount f.contents.length) (hpositive : 0 < n)
    (hindex : index = q.tail)
    (hq' : Holds k q' base 0 f.contents (base + shown) (base + f.contents.length)) :
    Taking k q' history fifo 0 index n shown n base f.contents where
  holds := hq'
  index := hindex.trans h.holds.tail
  positive := hpositive
  enough := by omega
  becomes := by
    rw [hfifo, hn]
    show f.contents.drop maxCount = _
    rcases le_total maxCount f.contents.length with hle | hle
    · rw [min_eq_left hle]
    · rw [min_eq_right hle, List.drop_length, List.drop_of_length_le hle]
  delivered := by
    rw [hfifo, hn, List.drop_zero, h.delivered, ← List.map_append]
    show _ = (f.delivered ++ f.contents.take maxCount).map some
    rw [push_take _ maxCount, min_comm]
  answer := by
    rw [hfifo, hn]
    rfl

theorem Taking.moveOut {left shown total : ℕ} (hk63 : k ≤ 63)
    (h : Taking k q history fifo 0 index left shown total base contents) :
    Taking k (moveValue .pop index q history).1 (moveValue .pop index q history).2 fifo 1 index
      left shown total base contents := by
  have hslot : q.slot index = base % 2 ^ k := by
    rw [h.index]
    exact slot_word h.holds.mask hk63 base 0
  have hpositive := h.positive
  have henough := h.enough
  cases contents with
  | nil =>
      rw [List.length_nil] at henough
      omega
  | cons v rest =>
      constructor
      · constructor
        · exact h.holds.mask
        · have hring := h.holds.ring.moveOut none
          rw [← hslot] at hring
          exact hring
        · exact h.holds.tail
        · exact h.holds.head
      · exact h.index
      · exact hpositive
      · exact henough
      · exact h.becomes
      · have hcell : q.storage (q.slot index) = some v := by
          rw [hslot]
          exact h.holds.ring.storage_tail
        obtain ⟨n, rfl⟩ : ∃ n, left = n + 1 := ⟨left - 1, by omega⟩
        have hdelivered := h.delivered
        rw [List.drop_zero, List.take_succ_cons, List.map_cons] at hdelivered
        rw [List.take_succ_cons, List.drop_one, List.tail_cons]
        show (history.taken ++ [(index, q.storage (q.slot index))]).map (·.2) ++ _ = _
        rw [List.map_append, List.append_assoc, List.map_singleton, hcell]
        exact hdelivered
      · exact h.answer

/-- The slot goes over to the producers. -/
theorem Taking.release {left shown total : ℕ} (hk63 : k ≤ 63)
    (h : Taking k q history fifo 1 index left shown total base contents) :
    Holds k (handOver .pop index q history).1 (base + 1) 0 (contents.drop 1) (base + shown)
      (base + contents.length) := by
  have hslot : q.slot index = base % 2 ^ k := by
    rw [h.index]
    exact slot_word h.holds.mask hk63 base 0
  have hafter : (index + q.mask + 1) % WORD = (base + 2 ^ k) % WORD := by
    rw [h.index, Nat.add_assoc, h.holds.mask, Nat.mod_add_mod]
  have hpositive := h.positive
  have henough := h.enough
  cases contents with
  | nil =>
      rw [List.length_nil] at henough
      omega
  | cons v rest =>
      have hring := h.holds.ring.release le_rfl
      rw [← hslot, ← hafter] at hring
      exact ⟨h.holds.mask, hring, h.holds.tail, h.holds.head⟩

/-- All values are taken. -/
theorem Taking.finished {total : ℕ}
    (h : Taking k q history fifo 1 index 1 1 total base contents)
    (hq' : Holds k q' (base + 1) 0 (contents.drop 1) (base + 1) (base + contents.length))
    (htaken : history'.taken = history.taken) : AtRest k q' history' fifo (base + 1) where
  holds := by
    have henough := h.enough
    rw [h.becomes, List.length_drop, Nat.add_assoc, Nat.add_sub_cancel' henough]
    exact hq'
  delivered := by
    rw [htaken, ← h.delivered, List.drop_of_length_le (by simp), List.map_nil, List.append_nil]

/-- The next value is to be taken. -/
theorem Taking.further {left total : ℕ}
    (h : Taking k q history fifo 1 index (left + 1) (left + 1) total base contents)
    (hleft : 0 < left)
    (hq' : Holds k q' (base + 1) 0 (contents.drop 1) (base + (left + 1))
      (base + contents.length))
    (htaken : history'.taken = history.taken) :
    Taking k q' history' fifo 0 ((index + 1) % WORD) left left total (base + 1)
      (contents.drop 1) where
  holds := by
    have henough := h.enough
    rw [List.length_drop, Nat.add_assoc, Nat.add_assoc, Nat.add_comm 1 left,
      Nat.add_sub_cancel' (by omega)]
    exact hq'
  index := by rw [h.index, Nat.mod_add_mod]
  positive := hleft
  enough := by
    have henough := h.enough
    rw [List.length_drop]
    omega
  becomes := by
    rw [h.becomes, List.drop_drop, Nat.add_comm]
  delivered := by
    rw [htaken, ← h.delivered, List.drop_zero, List.drop_take, Nat.add_sub_cancel]
  answer := h.answer

/-! ## Full and empty -/

theorem AtRest.sequence_head (hk63 : k ≤ 63) (h : AtRest k q history f base) :
    q.sequence (q.slot q.head) =
      if f.contents.length < 2 ^ k then (base + f.contents.length) % WORD
      else (base + f.contents.length + 1 - 2 ^ k) % WORD := by
  have hslot : q.slot q.head = (base + f.contents.length) % 2 ^ k := by
    rw [h.holds.head]
    exact slot_word h.holds.mask hk63 (base + f.contents.length) 0
  rw [hslot]
  exact h.holds.ring.sequence_head (Nat.two_pow_pos k)

theorem AtRest.sequence_tail (hk63 : k ≤ 63) (h : AtRest k q history f base) :
    q.sequence (q.slot q.tail) =
      if f.contents = [] then base % WORD else (base + 1) % WORD := by
  have hslot : q.slot q.tail = base % 2 ^ k := by
    rw [h.holds.tail]
    exact slot_word h.holds.mask hk63 base 0
  rw [hslot]
  exact h.holds.ring.sequence_tail (Nat.two_pow_pos k)

theorem AtRest.head_free (hk63 : k ≤ 63) (h : AtRest k q history f base)
    (hroom : f.contents.length < 2 ^ k) : q.sequence (q.slot q.head) = q.head := by
  rw [h.sequence_head hk63, if_pos hroom, h.holds.head]

theorem AtRest.tail_full (hk63 : k ≤ 63) (h : AtRest k q history f base)
    (hstored : f.contents ≠ []) : q.sequence (q.slot q.tail) = (q.tail + 1) % WORD := by
  rw [h.sequence_tail hk63, if_neg hstored, h.holds.tail, Nat.mod_add_mod]

theorem signedDiff_self (a : ℕ) : signedDiff a a = 0 := by
  unfold signedDiff
  exact sub_self _

/-- In a full ring the slot at `head_` lies one round behind, and with two cells or more
this is another number. -/
theorem AtRest.head_behind (hk63 : k ≤ 63) (h : AtRest k q history f base)
    (hfull : ¬ f.contents.length < 2 ^ k) (hk : k ≠ 0)
    (hfits : Comparable q (.single (.loadSequence (.push value) q.head))) :
    signedDiff (q.sequence (q.slot q.head)) q.head < 0 := by
  have hlarge : 2 ≤ 2 ^ k := Nat.le_self_pow hk 2
  have hsmall : 2 ^ k ≤ 2 ^ 63 := Nat.pow_le_pow_right (by omega) hk63
  replace hfits : -2 ^ 63 ≤ signedDiff (q.sequence (q.slot q.head)) q.head ∧
    signedDiff (q.sequence (q.slot q.head)) q.head < 2 ^ 63 := hfits
  rw [h.sequence_head hk63, if_neg hfull, h.holds.head] at hfits ⊢
  generalize hposition : base + f.contents.length = position at hfits ⊢
  have hle : 2 ^ k ≤ position := by omega
  rw [signedDiff_words (by omega) (by omega) hfits]
  omega

theorem AtRest.tail_behind (hk63 : k ≤ 63) (h : AtRest k q history f base)
    (hempty : f.contents = []) (hfits : Comparable q (.single (.loadSequence .pop q.tail))) :
    signedDiff (q.sequence (q.slot q.tail)) ((q.tail + 1) % WORD) < 0 := by
  replace hfits : -2 ^ 63 ≤ signedDiff (q.sequence (q.slot q.tail)) ((q.tail + 1) % WORD) ∧
    signedDiff (q.sequence (q.slot q.tail)) ((q.tail + 1) % WORD) < 2 ^ 63 := hfits
  rw [h.sequence_tail hk63, if_pos hempty, h.holds.tail, Nat.mod_add_mod] at hfits ⊢
  rw [signedDiff_words (by omega) (by omega) hfits]
  omega

theorem AtRest.tail_other (hk63 : k ≤ 63) (h : AtRest k q history f base)
    (hempty : f.contents = []) : q.sequence (q.slot q.tail) ≠ (q.tail + 1) % WORD := by
  rw [h.sequence_tail hk63, if_pos hempty, h.holds.tail, Nat.mod_add_mod]
  exact word_ne (Nat.lt_succ_self base) (by omega)

theorem AtRest.head_other (hk63 : k ≤ 63) (h : AtRest k q history f base)
    (hfull : ¬ f.contents.length < 2 ^ k) (hk : k ≠ 0) :
    q.sequence (q.slot q.head) ≠ q.head := by
  have hlarge : 2 ≤ 2 ^ k := Nat.le_self_pow hk 2
  have hsmall : 2 ^ k ≤ 2 ^ 63 := Nat.pow_le_pow_right (by omega) hk63
  rw [h.sequence_head hk63, if_neg hfull, h.holds.head]
  exact word_ne (by omega) (by omega)

/-- Nothing is stored of what there is no room for. -/
theorem AtRest.refused {values : List T} (h : AtRest k q history f base)
    (hfifo : fifo = f.push (2 ^ k) values)
    (hnone : min values.length (2 ^ k - f.contents.length) = 0) :
    AtRest k q history fifo base ∧ fifo.answer = 0 := by
  constructor
  · apply h.answered
    · rw [hfifo]
      show f.contents ++ values.take _ = _
      rw [push_take, hnone, List.take_zero, List.append_nil]
    · rw [hfifo]
      rfl
  · rw [hfifo]
    exact hnone

theorem AtRest.nothing {maxCount : ℕ} (h : AtRest k q history f base)
    (hfifo : fifo = f.pop maxCount) (hnone : min maxCount f.contents.length = 0) :
    AtRest k q history fifo base ∧ fifo.answer = 0 := by
  constructor
  · apply h.answered
    · rw [hfifo]
      show f.contents.drop maxCount = _
      rcases Nat.min_eq_zero_iff.mp hnone with hzero | hempty
      · rw [hzero, List.drop_zero]
      · rw [List.length_eq_zero_iff.mp hempty, List.drop_nil]
    · rw [hfifo]
      show f.delivered ++ f.contents.take maxCount = _
      rw [push_take, min_comm, hnone, List.take_zero, List.append_nil]
  · rw [hfifo]
    exact hnone

/-! ## The steps -/

/-- The step can be taken, it keeps what holds, and unless an exchange fails for no reason
it leads nearer to the end. -/
def Advances (k t : ℕ) (q : RingBufferQueue T) (history : History T) (fifo : BoundedFifo T)
    (spurious : Bool) (pc : BatchPc T) : Prop :=
  ∃ r, advanceBatch t spurious q history pc = some r ∧
    Stage k r.1 r.2.1 fifo r.2.2 ∧ (spurious = false → r.2.2.rank < pc.rank)

variable {t : ℕ} {spurious : Bool} {op : Op T}

theorem choose_rank (t : ℕ) (op : Op T) (q : RingBufferQueue T) (choice : Choice) :
    (q.choose t op choice).2.rank < (Pc.choosing choice op).rank := by
  cases choice <;> unfold choose <;> dsimp only <;> try split
  all_goals try split
  all_goals simp only [Pc.rank, Choice.rank]
  all_goals omega

theorem advances_choosing {choice : Choice}
    (h : Stage k q history fifo (.single (.choosing choice op))) :
    Advances k t q history fifo spurious (.single (.choosing choice op)) := by
  obtain ⟨f, base, hasked⟩ := h
  have hsame := sameRing_choose t op q choice
  have hasked' := hasked.same hsame
  have hchosen := QueueSystem.chosen_choose t op q choice
  have hrank := choose_rank t op q choice
  refine ⟨_, rfl, ?_, fun _ => hrank⟩
  dsimp only
  generalize (q.choose t op choice).2 = pc at hchosen
  cases hchosen with
  | choosing => exact ⟨f, base, hasked'⟩
  | owned => exact ⟨f, base, hasked'⟩
  | multi => exact ⟨f, base, hasked'⟩
  | single => exact ⟨f, base, hasked'⟩

theorem advances_loadIndex (h : Stage k q history fifo (.single (.loadIndex op))) :
    Advances k t q history fifo spurious (.single (.loadIndex op)) := by
  refine ⟨_, rfl, ⟨h, rfl⟩, fun _ => ?_⟩
  simp [BatchPc.rank, Pc.rank]

theorem advances_spscLoadIndex (h : Stage k q history fifo (.single (.spscLoadIndex op))) :
    Advances k t q history fifo spurious (.single (.spscLoadIndex op)) := by
  refine ⟨_, rfl, ⟨h, rfl⟩, fun _ => ?_⟩
  simp [BatchPc.rank, Pc.rank]

theorem Asked.room {value : T} (h : Asked k q history fifo (.tryPush value) f base)
    (hfull : ¬ f.contents.length < 2 ^ k) : k ≠ 0 := by
  intro hzero
  have hempty := h.spared value rfl hzero
  rw [hempty, List.length_nil] at hfull
  exact hfull (Nat.two_pow_pos k)

/-- A push into a full ring. -/
theorem Asked.full {value : T} (h : Asked k q history fifo (.tryPush value) f base)
    (hfull : ¬ f.contents.length < 2 ^ k) :
    Stage k q history fifo (.single (.returned false)) := by
  have hnone : min [value].length (2 ^ k - f.contents.length) = 0 := by
    rw [Nat.sub_eq_zero_of_le (not_lt.mp hfull), Nat.min_zero]
  exact ⟨base, h.rest.refused h.called hnone⟩

/-- A pop from an empty ring. -/
theorem Asked.empty (h : Asked k q history fifo .tryPop f base) (hempty : f.contents = []) :
    Stage k q history fifo (.single (.returned false)) := by
  have hnone : min 1 f.contents.length = 0 := by
    rw [hempty, List.length_nil, Nat.min_zero]
  exact ⟨base, h.rest.nothing h.called hnone⟩

theorem advances_loadSequence (hk63 : k ≤ 63)
    (h : Stage k q history fifo (.single (.loadSequence op index)))
    (hfits : Comparable q (.single (.loadSequence op index))) :
    Advances k t q history fifo spurious (.single (.loadSequence op index)) := by
  obtain ⟨⟨f, base, hasked⟩, rfl⟩ := h
  unfold Advances advanceBatch advance
  dsimp only
  cases op with
  | push value =>
      show ∃ r, Option.map _ (if signedDiff (q.sequence (q.slot q.head)) q.head = 0 then _
        else if signedDiff (q.sequence (q.slot q.head)) q.head < 0 then _ else _) = _ ∧ _
      by_cases hroom : f.contents.length < 2 ^ k
      · rw [if_pos (by rw [hasked.rest.head_free hk63 hroom, signedDiff_self])]
        exact ⟨_, rfl, ⟨f, base, hasked, rfl, hroom⟩, fun _ => by simp [BatchPc.rank, Pc.rank]⟩
      · have hbehind := hasked.rest.head_behind hk63 hroom (hasked.room hroom) hfits
        rw [if_neg hbehind.ne, if_pos hbehind]
        exact ⟨_, rfl, hasked.full hroom, fun _ => by simp [BatchPc.rank, Pc.rank]⟩
  | pop =>
      show ∃ r, Option.map _
        (if signedDiff (q.sequence (q.slot q.tail)) ((q.tail + 1) % WORD) = 0 then _
        else if signedDiff (q.sequence (q.slot q.tail)) ((q.tail + 1) % WORD) < 0 then _
        else _) = _ ∧ _
      by_cases hempty : f.contents = []
      · have hbehind := hasked.rest.tail_behind hk63 hempty hfits
        rw [if_neg hbehind.ne, if_pos hbehind]
        exact ⟨_, rfl, hasked.empty hempty, fun _ => by simp [BatchPc.rank, Pc.rank]⟩
      · rw [if_pos (by rw [hasked.rest.tail_full hk63 hempty, signedDiff_self])]
        exact ⟨_, rfl, ⟨f, base, hasked, rfl, hempty⟩, fun _ => by simp [BatchPc.rank, Pc.rank]⟩

/-- `head_` has been moved past the positions that are to be filled. -/
theorem AtRest.claimHead {values : List T} {n : ℕ} (h : AtRest k q history f base)
    (hfifo : fifo = f.push (2 ^ k) values)
    (hn : n = min values.length (2 ^ k - f.contents.length))
    (htaken : history'.taken = history.taken) :
    Storing k (q.setIndex ((q.head + n) % WORD) .producer) history' fifo (values.take n) q.head n n
      base f.contents := by
  have hrest' : AtRest k q history' f base := ⟨h.holds, htaken ▸ h.delivered⟩
  apply hrest'.storing hfifo hn rfl
  refine ⟨h.holds.mask, h.holds.ring, h.holds.tail, ?_⟩
  show (q.head + n) % WORD = _
  rw [h.holds.head, Nat.mod_add_mod]

theorem AtRest.claimTail {maxCount n : ℕ} (h : AtRest k q history f base)
    (hfifo : fifo = f.pop maxCount) (hn : n = min maxCount f.contents.length) (hpositive : 0 < n)
    (htaken : history'.taken = history.taken) :
    Taking k (q.setIndex ((q.tail + n) % WORD) .consumer) history' fifo 0 q.tail n n n base
      f.contents := by
  have hrest' : AtRest k q history' f base := ⟨h.holds, htaken ▸ h.delivered⟩
  apply hrest'.taking hfifo hn hpositive rfl
  refine ⟨h.holds.mask, h.holds.ring, ?_, h.holds.head⟩
  show (q.tail + n) % WORD = _
  rw [h.holds.tail, Nat.mod_add_mod]

theorem one_pushed {value : T} (hroom : f.contents.length < 2 ^ k) :
    1 = min [value].length (2 ^ k - f.contents.length) := by
  rw [List.length_singleton]
  omega

theorem one_popped (hstored : f.contents ≠ []) : 1 = min 1 f.contents.length := by
  have := List.length_pos_iff.mpr hstored
  omega

theorem advances_exchange (h : Stage k q history fifo (.single (.exchange op index))) :
    Advances k t q history fifo spurious (.single (.exchange op index)) := by
  obtain ⟨f, base, hasked, rfl, hpossible⟩ := h
  unfold Advances advanceBatch advance
  cases spurious with
  | true =>
      refine ⟨_, rfl, ⟨⟨f, base, hasked⟩, rfl⟩, fun hfalse => ?_⟩
      cases hfalse
  | false =>
      dsimp only
      rw [if_pos (by simp)]
      cases op with
      | push value =>
          refine ⟨_, rfl, ⟨base, f.contents, ?_⟩, fun _ => by simp [BatchPc.rank, Pc.rank]⟩
          exact hasked.rest.claimHead hasked.called (one_pushed hpossible) rfl
      | pop =>
          refine ⟨_, rfl, ⟨base, f.contents, ?_⟩, fun _ => by simp [BatchPc.rank, Pc.rank]⟩
          exact hasked.rest.claimTail hasked.called (one_popped hpossible) Nat.one_pos rfl

theorem advances_move (hk63 : k ≤ 63) (h : Stage k q history fifo (.single (.move op index))) :
    Advances k t q history fifo spurious (.single (.move op index)) := by
  unfold Advances advanceBatch advance
  cases op with
  | push value =>
      obtain ⟨base, contents, hstoring⟩ := h
      have hconstructed := hstoring.construct hk63
      exact ⟨_, rfl, ⟨base, contents, hconstructed⟩, fun _ => by simp [BatchPc.rank, Pc.rank]⟩
  | pop =>
      obtain ⟨base, contents, htaking⟩ := h
      have hmoved := htaking.moveOut hk63
      exact ⟨_, rfl, ⟨base, contents, hmoved⟩, fun _ => by simp [BatchPc.rank, Pc.rank]⟩

theorem advances_storeSequence (hk63 : k ≤ 63)
    (h : Stage k q history fifo (.single (.storeSequence op index))) :
    Advances k t q history fifo spurious (.single (.storeSequence op index)) := by
  unfold Advances advanceBatch advance
  cases op with
  | push value =>
      obtain ⟨base, contents, hstoring, hcell⟩ := h
      have hpublished := hstoring.publish hk63 hcell
      refine ⟨_, rfl, ⟨base, ?_, hstoring.answer⟩, fun _ => by simp [BatchPc.rank, Pc.rank]⟩
      exact hstoring.finished hpublished rfl
  | pop =>
      obtain ⟨base, contents, htaking⟩ := h
      have hreleased := htaking.release hk63
      refine ⟨_, rfl, ⟨base + 1, ?_, htaking.answer⟩, fun _ => by simp [BatchPc.rank, Pc.rank]⟩
      exact htaking.finished hreleased rfl

/-! ### The single producer and the single consumer -/

theorem advances_spscLoadSequence (hk63 : k ≤ 63)
    (h : Stage k q history fifo (.single (.spscLoadSequence op index))) :
    Advances k t q history fifo spurious (.single (.spscLoadSequence op index)) := by
  obtain ⟨⟨f, base, hasked⟩, rfl⟩ := h
  unfold Advances advanceBatch advance
  dsimp only
  cases op with
  | push value =>
      show ∃ r, Option.map _ (if q.sequence (q.slot q.head) ≠ q.head then _ else _) = _ ∧ _
      by_cases hroom : f.contents.length < 2 ^ k
      · rw [if_neg (not_not.mpr (hasked.rest.head_free hk63 hroom))]
        refine ⟨_, rfl, ⟨base, f.contents, ?_⟩, fun _ => by simp [BatchPc.rank, Pc.rank]⟩
        exact hasked.rest.storing hasked.called (one_pushed hroom) rfl hasked.rest.holds
      · rw [if_pos (hasked.rest.head_other hk63 hroom (hasked.room hroom))]
        exact ⟨_, rfl, hasked.full hroom, fun _ => by simp [BatchPc.rank, Pc.rank]⟩
  | pop =>
      show ∃ r, Option.map _
        (if q.sequence (q.slot q.tail) ≠ (q.tail + 1) % WORD then _ else _) = _ ∧ _
      by_cases hempty : f.contents = []
      · rw [if_pos (hasked.rest.tail_other hk63 hempty)]
        exact ⟨_, rfl, hasked.empty hempty, fun _ => by simp [BatchPc.rank, Pc.rank]⟩
      · rw [if_neg (not_not.mpr (hasked.rest.tail_full hk63 hempty))]
        refine ⟨_, rfl, ⟨base, f.contents, ?_⟩, fun _ => by simp [BatchPc.rank, Pc.rank]⟩
        exact hasked.rest.taking hasked.called (one_popped hempty) Nat.one_pos rfl
          hasked.rest.holds

theorem advances_spscMove (hk63 : k ≤ 63)
    (h : Stage k q history fifo (.single (.spscMove op index))) :
    Advances k t q history fifo spurious (.single (.spscMove op index)) := by
  unfold Advances advanceBatch advance
  cases op with
  | push value =>
      obtain ⟨base, contents, hstoring⟩ := h
      have hconstructed := hstoring.construct hk63
      exact ⟨_, rfl, ⟨base, contents, hconstructed⟩, fun _ => by simp [BatchPc.rank, Pc.rank]⟩
  | pop =>
      obtain ⟨base, contents, htaking⟩ := h
      have hmoved := htaking.moveOut hk63
      exact ⟨_, rfl, ⟨base, contents, hmoved⟩, fun _ => by simp [BatchPc.rank, Pc.rank]⟩

theorem Storing.lagging {value : T}
    (h : Storing k q history fifo [value] index 0 1 base contents)
    (hq' : Holds k q' base 0 (contents ++ [value]) base (base + contents.length + 0))
    (htaken : history'.taken = history.taken) :
    Lagging k q' history' fifo (.push value) index base base (base + contents.length) where
  holds := h.becomes ▸ hq'
  push := by
    intro _
    refine ⟨h.index, rfl, ?_⟩
    rw [h.becomes, List.length_append, List.length_singleton, Nat.add_assoc]
  pop := by
    intro hside
    cases hside
  delivered := htaken ▸ h.delivered
  answer := h.answer

theorem Taking.lagging (h : Taking k q history fifo 1 index 1 0 1 base contents)
    (hq' : Holds k q' (base + 1) 0 (contents.drop 1) (base + 0) (base + contents.length))
    (htaken : history'.taken = history.taken) :
    Lagging k q' history' fifo .pop index (base + 1) base (base + contents.length) where
  holds := h.becomes ▸ hq'
  push := by
    intro hside
    cases hside
  pop := by
    intro _
    have henough := h.enough
    refine ⟨h.index, rfl, ?_⟩
    rw [h.becomes, List.length_drop]
    omega
  delivered := by
    rw [htaken, ← h.delivered, List.drop_of_length_le (by simp), List.map_nil, List.append_nil]
  answer := h.answer

theorem advances_spscStoreSequence (hk63 : k ≤ 63)
    (h : Stage k q history fifo (.single (.spscStoreSequence op index))) :
    Advances k t q history fifo spurious (.single (.spscStoreSequence op index)) := by
  unfold Advances advanceBatch advance
  cases op with
  | push value =>
      obtain ⟨base, contents, hstoring, hcell⟩ := h
      have hlagging := hstoring.lagging (hstoring.publish hk63 hcell) rfl
      exact ⟨_, rfl, ⟨base, _, _, hlagging⟩, fun _ => by simp [BatchPc.rank, Pc.rank]⟩
  | pop =>
      obtain ⟨base, contents, htaking⟩ := h
      have hlagging : Lagging k _ (handOver .pop index q history).2 fifo .pop index (base + 1) base
          (base + contents.length) := htaking.lagging (htaking.release hk63) rfl
      exact ⟨_, rfl, ⟨base + 1, _, _, hlagging⟩, fun _ => by simp [BatchPc.rank, Pc.rank]⟩

theorem Lagging.finished (h : Lagging k q history fifo op index base tail head)
    (htaken : history'.taken = history.taken) :
    AtRest k (q.setIndex ((index + 1) % WORD) op.side) history' fifo base where
  holds := by
    cases hside : op.side with
    | producer =>
        obtain ⟨hindex, htail, hhead⟩ := h.push hside
        refine ⟨h.holds.mask, h.holds.ring, htail ▸ h.holds.tail, ?_⟩
        show (index + 1) % WORD = _
        rw [hindex, Nat.mod_add_mod, hhead]
    | consumer =>
        obtain ⟨hindex, htail, hhead⟩ := h.pop hside
        refine ⟨h.holds.mask, h.holds.ring, ?_, hhead ▸ h.holds.head⟩
        show (index + 1) % WORD = _
        rw [hindex, Nat.mod_add_mod, htail]
  delivered := htaken ▸ h.delivered

theorem advances_spscStoreIndex
    (h : Stage k q history fifo (.single (.spscStoreIndex op index))) :
    Advances k t q history fifo spurious (.single (.spscStoreIndex op index)) := by
  obtain ⟨base, tail, head, hlagging⟩ := h
  unfold Advances advanceBatch advance
  refine ⟨_, rfl, ⟨base, hlagging.finished ?_, hlagging.answer⟩, fun _ => ?_⟩
  · cases op <;> rfl
  · simp [BatchPc.rank, Pc.rank]

/-! ### Batches -/

theorem wordSub_words {a b : ℕ} (hle : b ≤ a) (hlt : a - b < WORD) :
    wordSub (a % WORD) (b % WORD) = a - b := by
  unfold wordSub
  exact word_sub hle hlt

theorem AtRest.stored_lt (hk63 : k ≤ 63) (h : AtRest k q history f base) :
    2 ^ k < WORD ∧ f.contents.length < WORD := by
  have hsmall : 2 ^ k < WORD := Nat.pow_lt_pow_right (by omega) (by omega)
  exact ⟨hsmall, h.holds.ring.fits.trans_lt hsmall⟩

theorem AtRest.stored_eq (hk63 : k ≤ 63) (h : AtRest k q history f base) :
    wordSub q.head q.tail = f.contents.length := by
  obtain ⟨-, hlt⟩ := h.stored_lt hk63
  have hsub := wordSub_words (Nat.le_add_right base f.contents.length)
    (by rwa [Nat.add_sub_cancel_left])
  rwa [Nat.add_sub_cancel_left, ← h.holds.head, ← h.holds.tail] at hsub

theorem AtRest.available_eq (hk63 : k ≤ 63) (h : AtRest k q history f base) :
    q.available q.head q.tail = 2 ^ k - f.contents.length := by
  obtain ⟨hsmall, hlt⟩ := h.stored_lt hk63
  have hsub := wordSub_words h.holds.ring.fits ((Nat.sub_le _ _).trans_lt hsmall)
  rw [Nat.mod_eq_of_lt hsmall, Nat.mod_eq_of_lt hlt] at hsub
  unfold available
  rw [h.stored_eq hk63, capacity, h.holds.mask, hsub]

theorem advances_pushLoadHead {values : List T}
    (h : Stage k q history fifo (.pushLoadHead values)) :
    Advances k t q history fifo spurious (.pushLoadHead values) := by
  obtain ⟨f, base, hasked⟩ := h
  unfold Advances advanceBatch
  dsimp only
  split
  next hempty =>
    refine ⟨_, rfl, ⟨base, hasked.rest.refused hasked.called ?_⟩, fun _ => by simp [BatchPc.rank]⟩
    rw [List.isEmpty_iff.mp hempty]
    simp
  next => exact ⟨_, rfl, ⟨⟨f, base, hasked⟩, rfl⟩, fun _ => by simp [BatchPc.rank]⟩

theorem advances_pushLoadTail {values : List T} {head : ℕ} (hk63 : k ≤ 63)
    (h : Stage k q history fifo (.pushLoadTail values head)) :
    Advances k t q history fifo spurious (.pushLoadTail values head) := by
  obtain ⟨⟨f, base, hasked⟩, rfl⟩ := h
  unfold Advances advanceBatch
  dsimp only
  rw [hasked.rest.available_eq hk63]
  split
  next hnone =>
    exact ⟨_, rfl, ⟨base, hasked.rest.refused hasked.called hnone⟩, fun _ => by simp [BatchPc.rank]⟩
  next hsome =>
    refine ⟨_, rfl, ⟨f, base, hasked, rfl, rfl, Nat.pos_of_ne_zero hsome⟩, fun _ => ?_⟩
    simp [BatchPc.rank]

theorem advances_pushExchange {values : List T} {head toPush : ℕ}
    (h : Stage k q history fifo (.pushExchange values head toPush)) :
    Advances k t q history fifo spurious (.pushExchange values head toPush) := by
  obtain ⟨f, base, hasked, rfl, htoPush, hpositive⟩ := h
  have hlength : (values.take toPush).length = toPush := by
    rw [List.length_take]
    omega
  unfold Advances advanceBatch
  dsimp only
  cases spurious with
  | true =>
      refine ⟨_, rfl, ⟨⟨f, base, hasked⟩, rfl⟩, fun hfalse => ?_⟩
      cases hfalse
  | false =>
      rw [if_pos (by simp)]
      refine ⟨_, rfl, ⟨?_, base, f.contents, ?_⟩, fun _ => ?_⟩
      · exact List.ne_nil_of_length_pos (hlength.symm ▸ hpositive)
      · rw [hlength]
        exact hasked.rest.claimHead hasked.called htoPush rfl
      · show 2 * (values.take toPush).length + 1 < 2 * values.length + 2
        omega

theorem advances_pushMove {pending : List T} {toPush : ℕ} (hk63 : k ≤ 63)
    (h : Stage k q history fifo (.pushMove pending index toPush)) :
    Advances k t q history fifo spurious (.pushMove pending index toPush) := by
  obtain ⟨hpending, base, contents, hstoring⟩ := h
  cases pending with
  | nil => exact absurd rfl hpending
  | cons value rest =>
      have hconstructed := hstoring.construct hk63
      refine ⟨_, rfl, ⟨hpending, base, contents, hconstructed⟩, fun _ => ?_⟩
      exact Nat.lt_succ_self _

theorem advances_pushStoreSequence {pending : List T} {toPush : ℕ} (hk63 : k ≤ 63)
    (h : Stage k q history fifo (.pushStoreSequence pending index toPush)) :
    Advances k t q history fifo spurious (.pushStoreSequence pending index toPush) := by
  obtain ⟨hpending, base, contents, hstoring, hcell⟩ := h
  cases pending with
  | nil => exact absurd rfl hpending
  | cons value rest =>
      have hpublished := hstoring.publish hk63 hcell
      unfold Advances advanceBatch
      dsimp only
      split
      next hempty =>
        rw [List.isEmpty_iff.mp hempty] at hstoring hpublished
        refine ⟨_, rfl, ⟨base, hstoring.finished hpublished rfl, hstoring.answer⟩, fun _ => ?_⟩
        simp [BatchPc.rank]
      next hmore =>
        have hrest : rest ≠ [] := fun heq => hmore (List.isEmpty_iff.mpr heq)
        refine ⟨_, rfl, ⟨hrest, base, _, hstoring.further hpublished rfl⟩, fun _ => ?_⟩
        simp [BatchPc.rank]
        omega

theorem advances_popLoadTail {maxCount : ℕ} (h : Stage k q history fifo (.popLoadTail maxCount)) :
    Advances k t q history fifo spurious (.popLoadTail maxCount) := by
  refine ⟨_, rfl, ⟨h, rfl⟩, fun _ => ?_⟩
  simp [BatchPc.rank]

theorem advances_popLoadHead {maxCount : ℕ} (hk63 : k ≤ 63)
    (h : Stage k q history fifo (.popLoadHead maxCount tail)) :
    Advances k t q history fifo spurious (.popLoadHead maxCount tail) := by
  obtain ⟨⟨f, base, hasked⟩, rfl⟩ := h
  have hsub := hasked.rest.stored_eq hk63
  unfold Advances advanceBatch
  dsimp only
  rw [hsub]
  split
  next hnone =>
    exact ⟨_, rfl, ⟨base, hasked.rest.nothing hasked.called hnone⟩, fun _ => by simp [BatchPc.rank]⟩
  next hsome =>
    refine ⟨_, rfl, ⟨f, base, hasked, rfl, rfl, Nat.pos_of_ne_zero hsome⟩, fun _ => ?_⟩
    simp only [BatchPc.rank]
    omega

theorem advances_popLoadSequence {maxCount toPop i : ℕ} (hk63 : k ≤ 63)
    (h : Stage k q history fifo (.popLoadSequence maxCount tail toPop i)) :
    Advances k t q history fifo spurious (.popLoadSequence maxCount tail toPop i) := by
  obtain ⟨f, base, hasked, rfl, htoPop, hi⟩ := h
  have hready : q.sequence (q.slot (q.tail + i)) = (q.tail + i + 1) % WORD := by
    have hfull := hasked.rest.holds.ring.full i (by omega)
    rw [hasked.rest.holds.tail, slot_word hasked.rest.holds.mask hk63, hfull, Nat.add_assoc,
      Nat.add_assoc, Nat.mod_add_mod]
  unfold Advances advanceBatch
  dsimp only
  rw [if_neg (not_not.mpr hready)]
  split
  next hmore =>
    refine ⟨_, rfl, ⟨f, base, hasked, rfl, htoPop, hmore⟩, fun _ => ?_⟩
    simp only [BatchPc.rank]
    omega
  next hlast =>
    refine ⟨_, rfl, ⟨f, base, hasked, rfl, htoPop, by omega⟩, fun _ => ?_⟩
    simp only [BatchPc.rank]
    omega

theorem advances_popExchange {maxCount toPop : ℕ}
    (h : Stage k q history fifo (.popExchange maxCount tail toPop)) :
    Advances k t q history fifo spurious (.popExchange maxCount tail toPop) := by
  obtain ⟨f, base, hasked, rfl, htoPop, hpositive⟩ := h
  unfold Advances advanceBatch
  dsimp only
  cases spurious with
  | true =>
      refine ⟨_, rfl, ⟨⟨f, base, hasked⟩, rfl⟩, fun hfalse => ?_⟩
      cases hfalse
  | false =>
      rw [if_pos (by simp)]
      refine ⟨_, rfl, ⟨base, f.contents, ?_⟩, fun _ => ?_⟩
      · exact hasked.rest.claimTail hasked.called htoPop hpositive rfl
      · exact Nat.lt_succ_self _

theorem advances_popMove {left toPop : ℕ} (hk63 : k ≤ 63)
    (h : Stage k q history fifo (.popMove index left toPop)) :
    Advances k t q history fifo spurious (.popMove index left toPop) := by
  obtain ⟨base, contents, htaking⟩ := h
  refine ⟨_, rfl, ⟨base, contents, htaking.moveOut hk63⟩, fun _ => ?_⟩
  exact Nat.lt_succ_self _

theorem advances_popStoreSequence {left toPop : ℕ} (hk63 : k ≤ 63)
    (h : Stage k q history fifo (.popStoreSequence index left toPop)) :
    Advances k t q history fifo spurious (.popStoreSequence index left toPop) := by
  obtain ⟨base, contents, htaking⟩ := h
  have hreleased := htaking.release hk63
  have hpositive := htaking.positive
  unfold Advances advanceBatch
  dsimp only
  split
  next hlast =>
    obtain rfl : left = 1 := by omega
    refine ⟨_, rfl, ⟨base + 1, htaking.finished hreleased rfl, htaking.answer⟩, fun _ => ?_⟩
    simp [BatchPc.rank]
  next hmore =>
    obtain ⟨n, rfl⟩ : ∃ n, left = n + 1 := ⟨left - 1, by omega⟩
    refine ⟨_, rfl, ⟨base + 1, _, htaking.further (by omega) hreleased rfl⟩, fun _ => ?_⟩
    simp only [BatchPc.rank]
    omega

theorem Stage.advances {pc : BatchPc T} (hk63 : k ≤ 63) (h : Stage k q history fifo pc)
    (hfits : Comparable q pc) (hinside : pc.outside = false) :
    Advances k t q history fifo spurious pc := by
  cases pc with
  | single pc =>
      cases pc with
      | idle => cases hinside
      | returned => cases hinside
      | choosing => exact advances_choosing h
      | loadIndex => exact advances_loadIndex h
      | loadSequence => exact advances_loadSequence hk63 h hfits
      | exchange => exact advances_exchange h
      | move => exact advances_move hk63 h
      | storeSequence => exact advances_storeSequence hk63 h
      | spscLoadIndex => exact advances_spscLoadIndex h
      | spscLoadSequence => exact advances_spscLoadSequence hk63 h
      | spscMove => exact advances_spscMove hk63 h
      | spscStoreSequence => exact advances_spscStoreSequence hk63 h
      | spscStoreIndex => exact advances_spscStoreIndex h
  | pushLoadHead => exact advances_pushLoadHead h
  | pushLoadTail => exact advances_pushLoadTail hk63 h
  | pushExchange => exact advances_pushExchange h
  | pushMove => exact advances_pushMove hk63 h
  | pushStoreSequence => exact advances_pushStoreSequence hk63 h
  | popLoadTail => exact advances_popLoadTail h
  | popLoadHead => exact advances_popLoadHead hk63 h
  | popLoadSequence => exact advances_popLoadSequence hk63 h
  | popExchange => exact advances_popExchange h
  | popMove => exact advances_popMove hk63 h
  | popStoreSequence => exact advances_popStoreSequence hk63 h
  | counted => cases hinside

/-- Between two calls the queue is at rest and has given the answer of the list. -/
theorem Stage.outside {pc : BatchPc T} (h : Stage k q history fifo pc)
    (houtside : pc.outside = true) :
    ∃ base, AtRest k q history fifo base ∧ fifo.answer = pc.result := by
  cases pc with
  | single pc =>
      cases pc with
      | idle => exact h
      | returned => exact h
      | _ => cases houtside
  | counted => exact h
  | _ => cases houtside

theorem Asked.start {operation : QueueCall T} (h : Asked k q history fifo operation f base) :
    Stage k q history fifo operation.start := by
  cases operation with
  | tryPush value => exact ⟨f, base, h⟩
  | tryPop => exact ⟨f, base, h⟩
  | pushBatch values => exact ⟨f, base, h⟩
  | popBatch maxCount => exact ⟨f, base, h⟩

end

/-! ## Runs -/

variable {k t : ℕ} {s : SoloSystem T}

def Invariant (k : ℕ) (s : SoloSystem T) : Prop :=
  Stage k s.queue s.history s.fifo s.pc

theorem AtRest.size_eq {q : RingBufferQueue T} {history : History T} {f : BoundedFifo T} {base : ℕ}
    (hk63 : k ≤ 63) (h : AtRest k q history f base) : q.size = f.contents.length :=
  h.stored_eq hk63

/-- A call finds the queue at rest. -/
theorem Invariant.call (hk63 : k ≤ 63) (h : s.Invariant k) {operation : QueueCall T}
    {next : SoloSystem T} (hmeets : Meets s (.call operation))
    (hstep : s.step t (.call operation) = some next) : next.Invariant k := by
  unfold step at hstep
  split_ifs at hstep with houtside
  obtain ⟨base, hrest, -⟩ := Stage.outside h houtside
  have hmask := hrest.holds.mask
  have hfits := hrest.holds.ring.fits
  rw [← Option.some.inj hstep]
  have hasked : Asked k s.queue s.history (s.fifo.call s.queue.capacity operation) operation s.fifo
      base := by
    refine ⟨hrest, by rw [capacity, hmask], ?_⟩
    rintro value rfl rfl
    have hspared : ¬ (s.queue.capacity = 1 ∧ s.queue.size = 1) := hmeets
    rw [hrest.size_eq hk63] at hspared
    have hcapacity : s.queue.capacity = 1 := hmask
    have hshort : s.fifo.contents.length ≤ 1 := hfits
    apply List.length_eq_zero_iff.mp
    omega
  exact hasked.start

theorem advanceBatch_outside {spurious : Bool} {q : RingBufferQueue T} {history : History T}
    {pc : BatchPc T} (houtside : pc.outside = true) :
    advanceBatch t spurious q history pc = none := by
  cases pc with
  | single pc =>
      cases pc with
      | idle => rfl
      | returned => rfl
      | _ => cases houtside
  | counted => rfl
  | _ => cases houtside

theorem step_step (t : ℕ) (s : SoloSystem T) (spurious : Bool) :
    s.step t (.step spurious) =
      (advanceBatch t spurious s.queue s.history s.pc).map fun result =>
        { s with queue := result.1, history := result.2.1, pc := result.2.2 } :=
  rfl

theorem Invariant.progress (hk63 : k ≤ 63) (h : s.Invariant k) {spurious : Bool}
    (hmeets : Meets s (.step spurious)) (hinside : s.pc.outside = false) :
    ∃ next, s.step t (.step spurious) = some next ∧ next.Invariant k ∧
      (spurious = false → next.pc.rank < s.pc.rank) := by
  have hadvances : Advances k t s.queue s.history s.fifo spurious s.pc :=
    Stage.advances hk63 h hmeets hinside
  obtain ⟨r, hr, hstage, hrank⟩ := hadvances
  refine ⟨{ s with queue := r.1, history := r.2.1, pc := r.2.2 }, ?_, hstage, hrank⟩
  rw [step_step, hr]
  rfl

theorem Invariant.step (hk63 : k ≤ 63) (h : s.Invariant k) {label : SoloLabel T}
    {next : SoloSystem T} (hmeets : Meets s label) (hstep : s.step t label = some next) :
    next.Invariant k := by
  cases label with
  | call operation => exact h.call hk63 hmeets hstep
  | step spurious =>
      cases hinside : s.pc.outside with
      | true =>
          rw [step_step, advanceBatch_outside hinside] at hstep
          cases hstep
      | false =>
          obtain ⟨next', hnext', hinvariant, -⟩ := h.progress (t := t) hk63 hmeets hinside
          rw [hstep] at hnext'
          rw [Option.some.inj hnext']
          exact hinvariant

/-- The rank is lowered until the call has returned. -/
theorem Invariant.ends (hk63 : k ≤ 63) (h : s.Invariant k) : s.Ends t := by
  unfold Ends
  induction hrank : s.pc.rank using Nat.strong_induction_on generalizing s with
  | _ rank ih =>
      cases hinside : s.pc.outside with
      | true => exact ⟨0, fun _ => ⟨s, rfl, hinside⟩⟩
      | false =>
          by_cases hmeets : Meets s (.step false)
          · obtain ⟨next, hnext, hinvariant, hlower⟩ := h.progress (t := t) hk63 hmeets hinside
            obtain ⟨n, hn⟩ := ih next.pc.rank (hrank ▸ hlower rfl) hinvariant rfl
            refine ⟨n + 1, fun halong => ?_⟩
            rw [List.replicate_succ] at halong ⊢
            obtain ⟨final, hfinal, houtside⟩ := hn (halong.2 next hnext)
            exact ⟨final, (exec_cons).mpr ⟨next, hnext, hfinal⟩, houtside⟩
          · exact ⟨1, fun halong => absurd halong.1 hmeets⟩

theorem Invariant.agrees (hk63 : k ≤ 63) (h : s.Invariant k) (houtside : s.pc.outside = true) :
    s.Agrees := by
  obtain ⟨base, hrest, hanswer⟩ := Stage.outside h houtside
  refine ⟨hanswer.symm, hrest.delivered, hrest.size_eq hk63, ?_⟩
  rw [capacity, hrest.holds.mask]
  exact hrest.holds.ring.fits

theorem invariant_initial {requested k : ℕ} (hrequested : nextPowerOfTwo requested = 2 ^ k)
    (hk63 : k ≤ 63) (fast : Bool) : (initial requested fast : SoloSystem T).Invariant k := by
  have hpositive : 0 < 2 ^ k := Nat.two_pow_pos k
  have hsmall : 2 ^ k ≤ WORD := Nat.pow_le_pow_right (by omega) (by omega)
  refine ⟨0, ⟨⟨?_, .initial hsmall, rfl, rfl⟩, rfl⟩, rfl⟩
  show nextPowerOfTwo requested - 1 + 1 = 2 ^ k
  omega

/-- In every run of one thread the queue answers as the bounded list, and every call
ends. -/
theorem solo_agrees {requested : ℕ} (hrequested : requested ≤ 2 ^ 63) (fast : Bool) (t : ℕ)
    {labels : List (SoloLabel T)} {s : SoloSystem T}
    (hmeets : Along (step t) Meets (initial requested fast) labels)
    (hexec : exec (step t) (initial requested fast) labels = some s) :
    (s.pc.outside = true → s.Agrees) ∧ s.Ends t := by
  obtain ⟨k, hk63, hcapacity, -⟩ := nextPowerOfTwo_pow hrequested
  have hinvariant : s.Invariant k := by
    apply exec_invariant_along _ (invariant_initial hcapacity hk63 fast) hmeets hexec
    intro s label next hs hlabel hstep
    exact hs.step hk63 hlabel hstep
  exact ⟨hinvariant.agrees hk63, hinvariant.ends hk63⟩

instance decidableComparable (q : RingBufferQueue T) : ∀ pc, Decidable (Comparable q pc)
  | .single pc =>
      match pc with
      | .loadSequence op index =>
          inferInstanceAs (Decidable
            (-2 ^ 63 ≤ signedDiff (q.sequence (q.slot index)) (ready index op.side) ∧
              signedDiff (q.sequence (q.slot index)) (ready index op.side) < 2 ^ 63))
      | .idle | .returned _ | .choosing _ _ | .loadIndex _ | .exchange _ _ | .move _ _
      | .storeSequence _ _ | .spscLoadIndex _ | .spscLoadSequence _ _ | .spscMove _ _
      | .spscStoreSequence _ _ | .spscStoreIndex _ _ => .isTrue trivial
  | .counted _ | .pushLoadHead _ | .pushLoadTail _ _ | .pushExchange _ _ _ | .pushMove _ _ _
  | .pushStoreSequence _ _ _ | .popLoadTail _ | .popLoadHead _ _ | .popLoadSequence _ _ _ _
  | .popExchange _ _ _ | .popMove _ _ _ | .popStoreSequence _ _ _ => .isTrue trivial

instance decidableMeets (s : SoloSystem T) : ∀ label, Decidable (Meets s label)
  | .call (.tryPush _) => inferInstanceAs (Decidable (¬ (s.queue.capacity = 1 ∧ s.queue.size = 1)))
  | .call .tryPop | .call (.pushBatch _) | .call (.popBatch _) => .isTrue trivial
  | .step _ => decidableComparable s.queue s.pc

/-- So many steps of the only thread. -/
def undisturbed (n : ℕ) : List (SoloLabel T) :=
  List.replicate n (.step false)

/-- A push, a batch of which one value has room, and a batch that takes both. -/
def batchRun : List (SoloLabel ℕ) :=
  .call (.tryPush 10) :: undisturbed 6 ++ .call (.pushBatch [20, 30]) :: undisturbed 5 ++
    .call (.popBatch 3) :: undisturbed 9

theorem solo_agrees_batchRun :
    ∃ s, exec (step 1) (initial 2 false) batchRun = some s ∧ s.pc.outside = true ∧
      s.history.taken = [(0, some 10), (1, some 20)] ∧ s.Agrees ∧ s.Ends 1 := by
  have hrun : ∃ s, exec (step 1) (initial 2 false) batchRun = some s ∧ s.pc.outside = true ∧
      s.history.taken = [(0, some 10), (1, some 20)] := ⟨_, rfl, rfl, rfl⟩
  rcases hrun with ⟨s, hexec, houtside, htaken⟩
  have hmeets : Along (step 1) Meets (initial 2 false) batchRun := by
    decide
  have hboth := solo_agrees (by decide) false 1 hmeets hexec
  exact ⟨s, hexec, houtside, htaken, hboth.1 houtside, hboth.2⟩

/-- A second push into the only cell. -/
def overfullRun : List (SoloLabel ℕ) :=
  .call (.tryPush 10) :: undisturbed 6 ++ .call (.tryPush 20) :: undisturbed 6

/-- With one cell a push into the full queue succeeds. -/
theorem overfullRun_accepted :
    ∃ s, exec (step 1) (initial 1 false) overfullRun = some s ∧ s.pc.outside = true ∧
      s.pc.result = 1 ∧ s.fifo.answer = 0 ∧ s.queue.size = 2 ∧ s.queue.capacity = 1 ∧
      ¬ s.Agrees := by
  have hrun : ∃ s, exec (step 1) (initial 1 false) overfullRun = some s ∧ s.pc.outside = true ∧
      s.pc.result = 1 ∧ s.fifo.answer = 0 ∧ s.queue.size = 2 ∧ s.queue.capacity = 1 :=
    ⟨_, rfl, rfl, rfl, rfl, rfl, rfl⟩
  rcases hrun with ⟨s, hexec, houtside, hresult, hanswer, hsize, hcapacity⟩
  refine ⟨s, hexec, houtside, hresult, hanswer, hsize, hcapacity, fun h => ?_⟩
  have := h.answer
  rw [hresult, hanswer] at this
  cases this

end SoloSystem

end Concurrent
end Katana
