import Katana.Library.Transition

/-!
# The wheel timer

`wheel_timer` with its entries, its free list and its slots of handles.  A
callback is told apart by the number of the `add` that brought it.  Callbacks run
in the middle of `advance_slot`, when the handles of the slot have been moved out,
and may call `add` and `cancel`; so `tick` is a sequence of steps, one for each
handle, and the calls of the callbacks stand between them.  A callback may also
leave by an exception.
-/

namespace Katana
namespace Timer

open Library

def SIZE_WORD : ℕ := 2 ^ 64

def INDEX_WORD : ℕ := 2 ^ 32

def COMPACT_INTERVAL_TICKS : ℕ := 8

structure EntryData where
  callback : Option ℕ := none
  remainingRounds : ℕ := 0
  generation : ℕ := 1
  active : Bool := false
  cancelled : Bool := false

structure SlotHandle where
  index : ℕ
  generation : ℕ
  deriving DecidableEq

/-- `wheel_timer<NumSlots, SlotMs>`; time points are in nanoseconds. -/
structure WheelTimer (numSlots slotMs : ℕ) where
  slots : ℕ → List SlotHandle := fun _ => []
  entries : ℕ → EntryData := fun _ => {}
  entriesSize : ℕ := 0
  /-- The back of the vector first. -/
  freeList : List ℕ := []
  currentSlot : ℕ := 0
  lastTick : ℕ
  pendingEntries : ℕ := 0
  compactTickCounter : ℕ := 0

def makeId (handle : SlotHandle) : ℕ :=
  handle.generation <<< 32 ||| handle.index

def decodeId (id : ℕ) : SlotHandle :=
  ⟨id &&& 0xffffffff, (id >>> 32) % INDEX_WORD⟩

namespace WheelTimer

variable {numSlots slotMs : ℕ}

def setEntry (index : ℕ) (entry : EntryData) (w : WheelTimer numSlots slotMs) :
    WheelTimer numSlots slotMs :=
  { w with entries := Function.update w.entries index entry }

def pushHandle (slot : ℕ) (handle : SlotHandle) (w : WheelTimer numSlots slotMs) :
    WheelTimer numSlots slotMs :=
  { w with slots := Function.update w.slots slot (w.slots slot ++ [handle]) }

def nextGeneration (generation : ℕ) : ℕ :=
  if (generation + 1) % INDEX_WORD = 0 then 1 else (generation + 1) % INDEX_WORD

def acquireEntry (w : WheelTimer numSlots slotMs) : ℕ × WheelTimer numSlots slotMs :=
  match w.freeList with
  | index :: rest =>
      (index, { w with
        entries := Function.update w.entries index
          { w.entries index with generation := nextGeneration (w.entries index).generation }
        freeList := rest
        pendingEntries := w.pendingEntries + 1 })
  | [] =>
      (w.entriesSize % INDEX_WORD, { w with
        entries := Function.update w.entries w.entriesSize {}
        entriesSize := w.entriesSize + 1
        pendingEntries := w.pendingEntries + 1 })

def releaseEntry (index : ℕ) (w : WheelTimer numSlots slotMs) : WheelTimer numSlots slotMs :=
  { w with
    entries := Function.update w.entries index
      { w.entries index with
        active := false, cancelled := false, callback := none, remainingRounds := 0 }
    freeList := index :: w.freeList
    pendingEntries := w.pendingEntries - 1 }

/-- Ticks of a timeout of type `milliseconds`. -/
def ticks (slotMs : ℕ) (timeout : Int64) : ℕ :=
  let count := if timeout.toInt ≤ 0 then 1 else timeout.toInt.toNat
  let ticks := (count + slotMs - 1) % SIZE_WORD / slotMs
  if ticks = 0 then 1 else ticks

/-- `add` throws if there is no callback. -/
def add (timeout : Int64) (callback : Option ℕ) (w : WheelTimer numSlots slotMs) :
    Option (ℕ × WheelTimer numSlots slotMs) :=
  if callback.isNone then none
  else
    let ticks := ticks slotMs timeout
    let targetSlot := (w.currentSlot + ticks % numSlots) % numSlots
    let index := w.acquireEntry.1
    let acquired := w.acquireEntry.2
    let entry := acquired.entries index
    let handle : SlotHandle := ⟨index, entry.generation⟩
    some (makeId handle,
      (acquired.setEntry index
        { entry with
          callback := callback, remainingRounds := ticks / numSlots, active := true }).pushHandle
        targetSlot handle)

def cancel (id : ℕ) (w : WheelTimer numSlots slotMs) : Bool × WheelTimer numSlots slotMs :=
  let handle := decodeId id
  let entry := w.entries handle.index
  if w.entriesSize ≤ handle.index then (false, w)
  else if !entry.active || entry.generation ≠ handle.generation then (false, w)
  else (true, w.setEntry handle.index { entry with cancelled := true })

/-- Number of times `tick` advances. -/
def elapsedTicks (now : ℕ) (w : WheelTimer numSlots slotMs) : ℕ :=
  if now ≤ w.lastTick then 0
  else
    let elapsed := (now - w.lastTick) / 1000000
    if elapsed < slotMs then 0 else elapsed / slotMs

def startTick (now : ℕ) (w : WheelTimer numSlots slotMs) : WheelTimer numSlots slotMs :=
  { w with lastTick := w.lastTick + 1000000 * (w.elapsedTicks now * slotMs) }

def nextSlot (w : WheelTimer numSlots slotMs) : ℕ :=
  (w.currentSlot + 1) % numSlots

/-- The first part of `advance_slot`, in which the handles are moved out. -/
def startSlot (w : WheelTimer numSlots slotMs) : WheelTimer numSlots slotMs :=
  if (w.slots w.nextSlot).isEmpty then { w with currentSlot := w.nextSlot }
  else { w with
    currentSlot := w.nextSlot
    slots := Function.update w.slots w.nextSlot []
    compactTickCounter := (w.compactTickCounter + 1) % SIZE_WORD }

def shouldCompact (w : WheelTimer numSlots slotMs) : Bool :=
  w.compactTickCounter % COMPACT_INTERVAL_TICKS = 0

/-- What `advance_slot` does with a handle. -/
inductive Visit where
  | stale | release | keep | count | fire
  deriving DecidableEq

def visit (handle : SlotHandle) (compact : Bool) (w : WheelTimer numSlots slotMs) : Visit :=
  let entry := w.entries handle.index
  if w.entriesSize ≤ handle.index then .stale
  else if !entry.active || entry.generation ≠ handle.generation then .stale
  else if entry.cancelled then if compact then .release else .keep
  else if 0 < entry.remainingRounds then .count
  else .fire

def visited (handle : SlotHandle) (compact : Bool) (w : WheelTimer numSlots slotMs) :
    WheelTimer numSlots slotMs :=
  let entry := w.entries handle.index
  match w.visit handle compact with
  | .stale => w
  | .release => w.releaseEntry handle.index
  | .keep => w.pushHandle w.currentSlot handle
  | .count =>
      (w.setEntry handle.index { entry with remainingRounds := entry.remainingRounds - 1 }).pushHandle
        w.currentSlot handle
  | .fire => w.releaseEntry handle.index

end WheelTimer

/-- Where `tick` stands: with so many slots left, in the loop over the handles, or
in a callback. -/
inductive Activity where
  | idle
  | advancing (left : ℕ)
  | visiting (left : ℕ) (handles : List SlotHandle) (compact : Bool)
  | calling (left : ℕ) (handles : List SlotHandle) (compact : Bool)

/-- What has happened to the timers, which are numbered in the order of `add`. -/
structure TimerHistory where
  adds : ℕ := 0
  ids : ℕ → ℕ := fun _ => 0
  /-- Calls of `advance_slot` before the timer was added, and its timeout. -/
  added : ℕ → ℕ × Int64 := fun _ => (0, 0)
  /-- Calls of `advance_slot`. -/
  advances : ℕ := 0
  /-- Timers whose callback was invoked, with the call of `advance_slot`. -/
  invoked : List (ℕ × ℕ) := []
  /-- Ids for which `cancel` returned true, with the timer in the entry. -/
  cancelled : List (ℕ × Option ℕ) := []
  /-- Timers released because they were cancelled. -/
  released : List (Option ℕ) := []
  /-- Number of times an entry was taken from the free list. -/
  reused : ℕ → ℕ := fun _ => 0

structure TimerRun (numSlots slotMs : ℕ) where
  wheel : WheelTimer numSlots slotMs
  activity : Activity := .idle
  history : TimerHistory := {}

inductive TimerLabel where
  | add (timeout : Int64)
  | cancel (id : ℕ)
  | tick (now : ℕ)
  | proceed
  | throw

namespace TimerRun

variable {numSlots slotMs : ℕ}

/-- Code outside the timer is running. -/
def outside (r : TimerRun numSlots slotMs) : Bool :=
  match r.activity with
  | .idle | .calling _ _ _ => true
  | _ => false

def recordAdd (timeout : Int64) (id : ℕ) (w : WheelTimer numSlots slotMs) (h : TimerHistory) :
    TimerHistory :=
  { h with
    adds := h.adds + 1
    ids := Function.update h.ids h.adds id
    added := Function.update h.added h.adds (h.advances, timeout)
    reused := match w.freeList with
      | index :: _ => Function.update h.reused index (h.reused index + 1)
      | [] => h.reused }

def recordCancel (id : ℕ) (w : WheelTimer numSlots slotMs) (h : TimerHistory) : TimerHistory :=
  if (w.cancel id).1 then
    { h with cancelled := (id, (w.entries (decodeId id).index).callback) :: h.cancelled }
  else h

def recordVisit (handle : SlotHandle) (compact : Bool) (w : WheelTimer numSlots slotMs)
    (h : TimerHistory) : TimerHistory :=
  match w.visit handle compact, (w.entries handle.index).callback with
  | .fire, some timer => { h with invoked := h.invoked ++ [(timer, h.advances)] }
  | .release, timer => { h with released := timer :: h.released }
  | _, _ => h

def step (r : TimerRun numSlots slotMs) : TimerLabel → Option (TimerRun numSlots slotMs)
  | .add timeout =>
      if r.outside then
        (r.wheel.add timeout (some r.history.adds)).map fun result =>
          { r with
            wheel := result.2
            history := recordAdd timeout result.1 r.wheel r.history }
      else none
  | .cancel id =>
      if r.outside then
        some { r with
          wheel := (r.wheel.cancel id).2
          history := recordCancel id r.wheel r.history }
      else none
  | .tick now =>
      match r.activity with
      | .idle =>
          some { r with
            wheel := r.wheel.startTick now
            activity := .advancing (r.wheel.elapsedTicks now) }
      | _ => none
  | .proceed =>
      match r.activity with
      | .idle => none
      | .advancing 0 => some { r with activity := .idle }
      | .advancing (left + 1) =>
          some { r with
            wheel := r.wheel.startSlot
            activity :=
              if (r.wheel.slots r.wheel.nextSlot).isEmpty then .advancing left
              else .visiting left (r.wheel.slots r.wheel.nextSlot) r.wheel.startSlot.shouldCompact
            history := { r.history with advances := r.history.advances + 1 } }
      | .visiting left [] _ => some { r with activity := .advancing left }
      | .visiting left (handle :: rest) compact =>
          some {
            wheel := r.wheel.visited handle compact
            activity :=
              if r.wheel.visit handle compact = .fire then .calling left rest compact
              else .visiting left rest compact
            history := recordVisit handle compact r.wheel r.history }
      | .calling left handles compact =>
          some { r with activity := .visiting left handles compact }
  | .throw =>
      match r.activity with
      | .calling _ _ _ => some { r with activity := .idle }
      | _ => none

/-- A timer just constructed. -/
def initial (now : ℕ) : TimerRun numSlots slotMs :=
  { wheel := { lastTick := now } }

end TimerRun

end Timer
end Katana
