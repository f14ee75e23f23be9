import Katana.Concurrent.RingQueue

/-!
# Batches of the ring buffer queue

`push_batch` and `pop_batch` as programs over the shared memory of the ring, beside
`try_push` and `try_pop`.  A batch moves its index by several positions at once.
`push_batch` computes the room from the two indices and does not look at the slots;
`pop_batch` reads the sequence numbers of the slots in front of its exchange.
-/

namespace Katana
namespace Concurrent

open Library RingBufferQueue

/-- Program counter of a thread in one of the four functions.  In the loops behind an
exchange `pending` are the values that are still to be stored, `left` the number of
values that are still to be taken, and `index` is the position of the next one. -/
inductive BatchPc (T : Type*) where
  | single (pc : Pc T)
  | pushLoadHead (values : List T)
  | pushLoadTail (values : List T) (head : ℕ)
  | pushExchange (values : List T) (head toPush : ℕ)
  | pushMove (pending : List T) (index toPush : ℕ)
  | pushStoreSequence (pending : List T) (index toPush : ℕ)
  | popLoadTail (maxCount : ℕ)
  | popLoadHead (maxCount tail : ℕ)
  | popLoadSequence (maxCount tail toPop i : ℕ)
  | popExchange (maxCount tail toPop : ℕ)
  | popMove (index left toPop : ℕ)
  | popStoreSequence (index left toPop : ℕ)
  | counted (result : ℕ)

inductive QueueCall (T : Type*) where
  | tryPush (value : T)
  | tryPop
  | pushBatch (values : List T)
  | popBatch (maxCount : ℕ)

variable {T : Type*}

def QueueCall.start : QueueCall T → BatchPc T
  | .tryPush value => .single (.choosing .seenProducers (.push value))
  | .tryPop => .single (.choosing .seenProducers .pop)
  | .pushBatch values => .pushLoadHead values
  | .popBatch maxCount => .popLoadTail maxCount

def QueueCall.side : QueueCall T → Side
  | .tryPush _ | .pushBatch _ => .producer
  | .tryPop | .popBatch _ => .consumer

def BatchPc.outside : BatchPc T → Bool
  | .single pc => pc.outside
  | .counted _ => true
  | _ => false

/-- The difference of two words. -/
def wordSub (a b : ℕ) : ℕ :=
  (a + (WORD - b)) % WORD

namespace RingBufferQueue

/-- How many values `push_batch` can store, as it sees it. -/
def available (q : RingBufferQueue T) (head tail : ℕ) : ℕ :=
  wordSub q.capacity (wordSub head tail)

end RingBufferQueue

namespace History

/-- Several positions are claimed by one exchange. -/
def claimMany (side : Side) (index count t : ℕ) (h : History T) : History T :=
  { h with
    claimed := Function.update h.claimed side
      (h.claimed side ++ (List.range count).map fun j => (index + j, t)) }

end History

/-- One atomic step of thread `t`; a weak exchange may also fail for no reason. -/
def advanceBatch (t : ℕ) (spurious : Bool) (q : RingBufferQueue T) (h : History T) :
    BatchPc T → Option (RingBufferQueue T × History T × BatchPc T)
  | .single pc => (advance t spurious q h pc).map fun r => (r.1, r.2.1, .single r.2.2)
  | .pushLoadHead values =>
      some (q, h, if values.isEmpty then .counted 0 else .pushLoadTail values q.head)
  | .pushLoadTail values head =>
      let toPush := min values.length (q.available head q.tail)
      some (q, h, if toPush = 0 then .counted 0 else .pushExchange values head toPush)
  | .pushExchange values head toPush =>
      if !spurious && q.head = head then
        some (q.setIndex ((head + toPush) % WORD) .producer, h.claimMany .producer head toPush t,
          .pushMove (values.take toPush) head toPush)
      else some (q, h, .pushLoadTail values q.head)
  | .pushMove [] _ _ => none
  | .pushMove (value :: rest) index toPush =>
      some ((moveValue (.push value) index q h).1, (moveValue (.push value) index q h).2,
        .pushStoreSequence (value :: rest) index toPush)
  | .pushStoreSequence [] _ _ => none
  | .pushStoreSequence (value :: rest) index toPush =>
      some ((handOver (.push value) index q h).1,
        (handOver (.push value) index q h).2.finish (.push value) index,
        if rest.isEmpty then .counted toPush else .pushMove rest ((index + 1) % WORD) toPush)
  | .popLoadTail maxCount => some (q, h, .popLoadHead maxCount q.tail)
  | .popLoadHead maxCount tail =>
      let toPop := min maxCount (wordSub q.head tail)
      some (q, h, if toPop = 0 then .counted 0 else .popLoadSequence maxCount tail toPop 0)
  | .popLoadSequence maxCount tail toPop i =>
      if q.sequence (q.slot (tail + i)) ≠ (tail + i + 1) % WORD then
        some (q, h, if i = 0 then .popLoadHead maxCount tail else .popExchange maxCount tail i)
      else
        some (q, h,
          if i + 1 < toPop then .popLoadSequence maxCount tail toPop (i + 1)
          else .popExchange maxCount tail toPop)
  | .popExchange maxCount tail toPop =>
      if !spurious && q.tail = tail then
        some (q.setIndex ((tail + toPop) % WORD) .consumer, h.claimMany .consumer tail toPop t,
          .popMove tail toPop toPop)
      else some (q, h, .popLoadHead maxCount q.tail)
  | .popMove index left toPop =>
      some ((moveValue .pop index q h).1, (moveValue .pop index q h).2,
        .popStoreSequence index left toPop)
  | .popStoreSequence index left toPop =>
      some ((handOver .pop index q h).1, (handOver .pop index q h).2,
        if left ≤ 1 then .counted toPop else .popMove ((index + 1) % WORD) (left - 1) toPop)
  | .counted _ => none

/-- The queue and its threads. -/
structure BatchSystem (T : Type*) where
  queue : RingBufferQueue T
  threads : ℕ → BatchPc T := fun _ => .single .idle
  history : History T := {}

inductive BatchLabel (T : Type*) where
  | call (thread : ℕ) (operation : QueueCall T)
  | step (thread : ℕ) (spurious : Bool)

/-- Thread ids start at 1. -/
def BatchSystem.step (s : BatchSystem T) : BatchLabel T → Option (BatchSystem T)
  | .call t operation =>
      if t ≠ 0 && (s.threads t).outside then
        some { s with
          threads := Function.update s.threads t operation.start
          history := { s.history with
            calls := Function.update s.history.calls operation.side
              (t :: s.history.calls operation.side) } }
      else none
  | .step t spurious =>
      (advanceBatch t spurious s.queue s.history (s.threads t)).map fun result =>
        { queue := result.1
          history := result.2.1
          threads := Function.update s.threads t result.2.2 }

/-- A queue just constructed. -/
def BatchSystem.initial (capacity : ℕ) (enableSpscFastPath : Bool) : BatchSystem T :=
  { queue := .create capacity enableSpscFastPath }

end Concurrent
end Katana
