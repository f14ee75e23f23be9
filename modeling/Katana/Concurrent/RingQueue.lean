import Katana.Library.TicketRing
import Katana.Library.Transition

/-!
# The ring buffer queue

`try_push` and `try_pop` as programs over shared memory, one atomic access a
step, in any interleaving.  The two functions differ in the end of the ring they
work at and in the sequence numbers they wait for and store; an operation
carries which of the two it is.  Numbers are of type `size_t`.  Waiters are left
out, and so is the notification of waiters that ends a successful call.  Beside
the memory stands a history that no step reads.
-/

namespace Katana
namespace Concurrent

open Library

def WORD : ℕ := 2 ^ 64

/-- The difference of two words as signed numbers. -/
def signedDiff (a b : ℕ) : ℤ :=
  (if a < 2 ^ 63 then (a : ℤ) else a - 2 ^ 64) - (if b < 2 ^ 63 then (b : ℤ) else b - 2 ^ 64)

def nextPowerOfTwo (n : ℕ) : ℕ :=
  if n = 0 then 1
  else
    let n := n - 1
    let n := n ||| n >>> 1
    let n := n ||| n >>> 2
    let n := n ||| n >>> 4
    let n := n ||| n >>> 8
    let n := n ||| n >>> 16
    let n := n ||| n >>> 32
    (n + 1) % WORD

inductive Side where
  | producer | consumer
  deriving DecidableEq

def Side.other : Side → Side
  | .producer => .consumer
  | .consumer => .producer

inductive Op (T : Type*) where
  | push (value : T)
  | pop

def Op.side {T : Type*} : Op T → Side
  | .push _ => .producer
  | .pop => .consumer

structure RingBufferQueue (T : Type*) where
  head : ℕ := 0
  tail : ℕ := 0
  mask : ℕ
  sequence : ℕ → ℕ := id
  storage : ℕ → Option T := fun _ => none
  lastProducer : ℕ := 0
  lastConsumer : ℕ := 0
  multiProducerSeen : Bool := false
  multiConsumerSeen : Bool := false

/-- What has happened to the positions of the ring. -/
structure History (T : Type*) where
  /-- Positions at which an index was moved on, with the thread, in this order. -/
  claimed : Side → List (ℕ × ℕ) := fun _ => []
  /-- Values constructed in a slot. -/
  stored : List (ℕ × T) := []
  /-- What was moved out of a slot. -/
  taken : List (ℕ × Option T) := []
  /-- Positions whose slot has been given back. -/
  released : List ℕ := []
  /-- Pushes that have returned true. -/
  accepted : List (ℕ × T) := []
  /-- Whether a value was constructed over one that had not been taken. -/
  overwritten : Bool := false
  /-- Threads that have called an operation. -/
  calls : Side → List ℕ := fun _ => []

/-- Where a thread stands while it decides between the two algorithms: in
`try_push` or `try_pop` itself, in `mark_producer` or `mark_consumer`, in
`spsc_push_available` or `spsc_pop_available`. -/
inductive Choice where
  | seenProducers | seenConsumers
  | markSeen | markLoad | markExchange | markStore
  | availableProducers | availableConsumers | availableOwn | availableOther
  deriving DecidableEq

/-- Program counter of a thread with its local variables. -/
inductive Pc (T : Type*) where
  | idle
  | choosing (choice : Choice) (op : Op T)
  | loadIndex (op : Op T)
  | loadSequence (op : Op T) (index : ℕ)
  | exchange (op : Op T) (index : ℕ)
  | move (op : Op T) (index : ℕ)
  | storeSequence (op : Op T) (index : ℕ)
  | spscLoadIndex (op : Op T)
  | spscLoadSequence (op : Op T) (index : ℕ)
  | spscMove (op : Op T) (index : ℕ)
  | spscStoreSequence (op : Op T) (index : ℕ)
  | spscStoreIndex (op : Op T) (index : ℕ)
  | returned (result : Bool)

variable {T : Type*}

namespace RingBufferQueue

/-- `ring_buffer_queue(capacity, enable_spsc_fast_path)`. -/
def create (capacity : ℕ) (enableSpscFastPath : Bool) : RingBufferQueue T :=
  { mask := nextPowerOfTwo capacity - 1
    multiProducerSeen := !enableSpscFastPath
    multiConsumerSeen := !enableSpscFastPath }

def capacity (q : RingBufferQueue T) : ℕ :=
  q.mask + 1

def slot (q : RingBufferQueue T) (index : ℕ) : ℕ :=
  index &&& q.mask

def index (q : RingBufferQueue T) : Side → ℕ
  | .producer => q.head
  | .consumer => q.tail

def setIndex (index : ℕ) (q : RingBufferQueue T) : Side → RingBufferQueue T
  | .producer => { q with head := index }
  | .consumer => { q with tail := index }

def last (q : RingBufferQueue T) : Side → ℕ
  | .producer => q.lastProducer
  | .consumer => q.lastConsumer

def setLast (thread : ℕ) (q : RingBufferQueue T) : Side → RingBufferQueue T
  | .producer => { q with lastProducer := thread }
  | .consumer => { q with lastConsumer := thread }

def multiSeen (q : RingBufferQueue T) : Side → Bool
  | .producer => q.multiProducerSeen
  | .consumer => q.multiConsumerSeen

def setMultiSeen (q : RingBufferQueue T) : Side → RingBufferQueue T
  | .producer => { q with multiProducerSeen := true }
  | .consumer => { q with multiConsumerSeen := true }

/-- Sequence number of a slot that is ready for the operation. -/
def ready (index : ℕ) : Side → ℕ
  | .producer => index
  | .consumer => (index + 1) % WORD

/-- Sequence number stored by the operation. -/
def after (q : RingBufferQueue T) (index : ℕ) : Side → ℕ
  | .producer => (index + 1) % WORD
  | .consumer => (index + q.mask + 1) % WORD

def size (q : RingBufferQueue T) : ℕ :=
  (q.head + (WORD - q.tail)) % WORD

/-- One step on the way to one of the two algorithms. -/
def choose (t : ℕ) (op : Op T) (q : RingBufferQueue T) : Choice → RingBufferQueue T × Pc T
  | .seenProducers =>
      (q, if q.multiProducerSeen then .loadIndex op else .choosing .seenConsumers op)
  | .seenConsumers =>
      (q, if q.multiConsumerSeen then .loadIndex op else .choosing .markSeen op)
  | .markSeen =>
      (q, .choosing (if q.multiSeen op.side then .availableProducers else .markLoad) op)
  | .markLoad =>
      (q, .choosing
        (if q.last op.side = t then .availableProducers
        else if q.last op.side = 0 then .markExchange else .markStore) op)
  | .markExchange =>
      (if q.last op.side = 0 then q.setLast t op.side else q, .choosing .availableProducers op)
  | .markStore => (q.setMultiSeen op.side, .choosing .availableProducers op)
  | .availableProducers =>
      (q, if q.multiProducerSeen then .loadIndex op else .choosing .availableConsumers op)
  | .availableConsumers =>
      (q, if q.multiConsumerSeen then .loadIndex op else .choosing .availableOwn op)
  | .availableOwn =>
      (q, if q.last op.side = t then .choosing .availableOther op else .loadIndex op)
  | .availableOther =>
      (q, if q.last op.side.other ≠ 0 then .spscLoadIndex op else .loadIndex op)

end RingBufferQueue

namespace History

def claim (side : Side) (index t : ℕ) (h : History T) : History T :=
  { h with claimed := Function.update h.claimed side (h.claimed side ++ [(index, t)]) }

def finish (op : Op T) (index : ℕ) (h : History T) : History T :=
  match op with
  | .push value => { h with accepted := h.accepted ++ [(index, value)] }
  | .pop => h

end History

open RingBufferQueue

/-- The value is constructed in the slot, or moved out of it and destroyed. -/
def moveValue (op : Op T) (index : ℕ) (q : RingBufferQueue T) (h : History T) :
    RingBufferQueue T × History T :=
  match op with
  | .push value =>
      ({ q with storage := Function.update q.storage (q.slot index) (some value) },
        { h with
          stored := h.stored ++ [(index, value)]
          overwritten := h.overwritten || (q.storage (q.slot index)).isSome })
  | .pop =>
      ({ q with storage := Function.update q.storage (q.slot index) none },
        { h with taken := h.taken ++ [(index, q.storage (q.slot index))] })

/-- The slot is handed over to the other side. -/
def handOver (op : Op T) (index : ℕ) (q : RingBufferQueue T) (h : History T) :
    RingBufferQueue T × History T :=
  ({ q with sequence := Function.update q.sequence (q.slot index) (q.after index op.side) },
    match op with
    | .push _ => h
    | .pop => { h with released := h.released ++ [index] })

/-- One atomic step of thread `t`; a weak exchange may also fail for no reason. -/
def advance (t : ℕ) (spurious : Bool) (q : RingBufferQueue T) (h : History T) :
    Pc T → Option (RingBufferQueue T × History T × Pc T)
  | .idle => none
  | .returned _ => none
  | .choosing choice op => some ((q.choose t op choice).1, h, (q.choose t op choice).2)
  | .loadIndex op => some (q, h, .loadSequence op (q.index op.side))
  | .loadSequence op index =>
      let diff := signedDiff (q.sequence (q.slot index)) (ready index op.side)
      if diff = 0 then some (q, h, .exchange op index)
      else if diff < 0 then some (q, h, .returned false)
      else some (q, h, .loadIndex op)
  | .exchange op index =>
      if !spurious && q.index op.side = index then
        some (q.setIndex ((index + 1) % WORD) op.side, h.claim op.side index t, .move op index)
      else some (q, h, .loadSequence op (q.index op.side))
  | .move op index =>
      some ((moveValue op index q h).1, (moveValue op index q h).2, .storeSequence op index)
  | .storeSequence op index =>
      some ((handOver op index q h).1, (handOver op index q h).2.finish op index, .returned true)
  | .spscLoadIndex op => some (q, h, .spscLoadSequence op (q.index op.side))
  | .spscLoadSequence op index =>
      if q.sequence (q.slot index) ≠ ready index op.side then some (q, h, .returned false)
      else some (q, h, .spscMove op index)
  | .spscMove op index =>
      some ((moveValue op index q h).1, (moveValue op index q h).2, .spscStoreSequence op index)
  | .spscStoreSequence op index =>
      some ((handOver op index q h).1, (handOver op index q h).2, .spscStoreIndex op index)
  | .spscStoreIndex op index =>
      some (q.setIndex ((index + 1) % WORD) op.side,
        (h.claim op.side index t).finish op index, .returned true)

/-- The queue and its threads. -/
structure QueueSystem (T : Type*) where
  queue : RingBufferQueue T
  threads : ℕ → Pc T := fun _ => .idle
  history : History T := {}

inductive QueueLabel (T : Type*) where
  | call (thread : ℕ) (op : Op T)
  | step (thread : ℕ) (spurious : Bool)

def Pc.outside : Pc T → Bool
  | .idle | .returned _ => true
  | _ => false

/-- Thread ids start at 1. -/
def QueueSystem.step (s : QueueSystem T) : QueueLabel T → Option (QueueSystem T)
  | .call t op =>
      if t ≠ 0 && (s.threads t).outside then
        some { s with
          threads := Function.update s.threads t (.choosing .seenProducers op)
          history := { s.history with
            calls := Function.update s.history.calls op.side (t :: s.history.calls op.side) } }
      else none
  | .step t spurious =>
      (advance t spurious s.queue s.history (s.threads t)).map fun result =>
        { queue := result.1
          history := result.2.1
          threads := Function.update s.threads t result.2.2 }

/-- A queue just constructed. -/
def QueueSystem.initial (capacity : ℕ) (enableSpscFastPath : Bool) : QueueSystem T :=
  { queue := .create capacity enableSpscFastPath }

end Concurrent
end Katana
