import Katana.Reactor.Epoll

/-!
# Timeouts of the io_uring reactor

The registrations of `io_uring_reactor`, the number of active descriptors and the timers of
the wheel.  Here a timer that goes off ends its registration, and a refresh cancels the timer
and adds another one.  What the submissions return is given with the call.  Completions and
the loop of a forced shutdown call callbacks, whose calls are steps of their own.  Entries of
`fd_states_` that do not exist are like entries that are empty.
-/

namespace Katana
namespace Reactor

open Library Timer

structure IoFdState where
  callback : Bool := false
  events : Events := {}
  timeoutId : ℕ := 0
  hasTimeout : Bool := false
  timeouts : TimeoutConfig := {}

structure IoUringReactor where
  fdStates : ℕ → IoFdState := fun _ => {}
  timers : TimerRun 2048 8
  /-- The descriptor for which a timer was added. -/
  timerFd : ℕ → ℕ := fun _ => 0
  /-- The registration whose callback runs because its timer has gone off. -/
  timingOut : Option ℕ := none
  activeFds : ℕ := 0
  /-- Calls of `advance_slot` before the timeout of a descriptor was last set up. -/
  setUp : ℕ → ℕ := fun _ => 0

inductive IoLabel where
  | registerFd (fd : ℕ) (events : Events) (addOk : Bool)
  | registerFdWithTimeout (fd : ℕ) (events : Events) (config : TimeoutConfig) (addOk : Bool)
  | modifyFd (fd : ℕ) (events : Events) (removeOk addOk : Bool)
  | unregisterFd (fd : ℕ) (removeOk : Bool)
  | refreshFdTimeout (fd : ℕ)
  | tick (now : ℕ)
  | proceed
  | callbackDone
  | forceShutdown (fd : ℕ)

namespace IoUringReactor

/-- The same comparisons as in the other reactor. -/
def fdTimeoutFor (state : IoFdState) : Int64 :=
  Reactor.fdTimeoutFor { events := state.events, timeouts := state.timeouts }

def setFd (fd : ℕ) (state : IoFdState) (s : IoUringReactor) : IoUringReactor :=
  { s with fdStates := Function.update s.fdStates fd state }

def setupFdTimeout (fd : ℕ) (state : IoFdState) (s : IoUringReactor) :
    Option (IoFdState × IoUringReactor) :=
  (s.timers.step (.add (fdTimeoutFor state))).map fun timers =>
    ({ state with timeoutId := timers.history.ids s.timers.history.adds },
      { s with
        timers := timers
        timerFd := Function.update s.timerFd s.timers.history.adds fd })

def cancelFdTimeout (state : IoFdState) (s : IoUringReactor) :
    Option (IoFdState × IoUringReactor) :=
  if state.timeoutId ≠ 0 then
    (s.timers.step (.cancel state.timeoutId)).map fun timers =>
      ({ state with timeoutId := 0 }, { s with timers := timers })
  else some (state, s)

/-- The entry of a descriptor whose timeout has been set up just now. -/
def store (fd : ℕ) (state : IoFdState) (s : IoUringReactor) : IoUringReactor :=
  { s.setFd fd state with
    setUp := Function.update s.setUp fd s.timers.history.advances }

def registerFd (fd : ℕ) (events : Events) (s : IoUringReactor) : IoUringReactor :=
  { s.setFd fd { callback := true, events := events } with
    activeFds := (s.activeFds + 1) % SIZE_WORD }

def registerFdWithTimeout (fd : ℕ) (events : Events) (config : TimeoutConfig) (addOk : Bool)
    (s : IoUringReactor) : Option IoUringReactor :=
  let state : IoFdState :=
    { callback := true, events := events, timeouts := config, hasTimeout := true }
  match s.setupFdTimeout fd state with
  | none => none
  | some (state, s) =>
      if addOk then
        some { s.store fd state with activeFds := (s.activeFds + 1) % SIZE_WORD }
      else (s.cancelFdTimeout state).map (·.2)

def resetTimeout (fd : ℕ) (state : IoFdState) (s : IoUringReactor) : Option IoUringReactor :=
  match s.cancelFdTimeout state with
  | none => none
  | some (state, s) => (s.setupFdTimeout fd state).map fun result => result.2.store fd result.1

def modifyFd (fd : ℕ) (events : Events) (removeOk addOk : Bool) (s : IoUringReactor) :
    Option IoUringReactor :=
  if !(s.fdStates fd).callback || !removeOk || !addOk then some s
  else
    let state := { s.fdStates fd with events := events }
    if state.hasTimeout then s.resetTimeout fd state else some (s.setFd fd state)

def unregisterFd (fd : ℕ) (removeOk : Bool) (s : IoUringReactor) : Option IoUringReactor :=
  if !(s.fdStates fd).callback then some s
  else
    match s.cancelFdTimeout (s.fdStates fd) with
    | none => none
    | some (state, s) =>
        if removeOk then
          some { s.setFd fd {} with activeFds := (s.activeFds + (SIZE_WORD - 1)) % SIZE_WORD }
        else some (s.setFd fd state)

def refreshFdTimeout (fd : ℕ) (s : IoUringReactor) : Option IoUringReactor :=
  if (s.fdStates fd).hasTimeout then s.resetTimeout fd (s.fdStates fd) else some s

/-- Code outside the reactor is running: between its steps or in a callback. -/
def outside (s : IoUringReactor) : Bool :=
  match s.timingOut, s.timers.activity with
  | some _, _ => true
  | none, .idle => true
  | _, _ => false

/-- The timer that the wheel has invoked in the last step. -/
def fired (timers : TimerRun 2048 8) : Option ℕ :=
  match timers.activity, timers.history.invoked.getLast? with
  | .calling _ _ _, some (timer, _) => some timer
  | _, _ => none

/-- The callback of a timer, up to the callback of the registration if there is one. -/
def timeOut (fd : ℕ) (s : IoUringReactor) : IoUringReactor :=
  { s.setFd fd { s.fdStates fd with timeoutId := 0 } with
    timingOut := if (s.fdStates fd).callback then some fd else none }

def proceed (s : IoUringReactor) : Option IoUringReactor :=
  (s.timers.step .proceed).map fun timers =>
    match fired timers with
    | some timer => { s with timers := timers }.timeOut (s.timerFd timer)
    | none => { s with timers := timers }

def step (s : IoUringReactor) : IoLabel → Option IoUringReactor
  | .registerFd fd events _ => if s.outside then some (s.registerFd fd events) else none
  | .registerFdWithTimeout fd events config addOk =>
      if s.outside then s.registerFdWithTimeout fd events config addOk else none
  | .modifyFd fd events removeOk addOk =>
      if s.outside then s.modifyFd fd events removeOk addOk else none
  | .unregisterFd fd removeOk => if s.outside then s.unregisterFd fd removeOk else none
  | .refreshFdTimeout fd => if s.outside then s.refreshFdTimeout fd else none
  | .tick now =>
      if s.timingOut = none then
        (s.timers.step (.tick now)).map fun timers => { s with timers := timers }
      else none
  | .proceed => if s.timingOut = none then s.proceed else none
  | .callbackDone =>
      match s.timingOut with
      | some fd => some { s.setFd fd {} with timingOut := none }
      | none => none
  | .forceShutdown fd =>
      match s.timingOut, s.timers.activity with
      | none, .idle => if (s.fdStates fd).callback then some (s.setFd fd {}) else some s
      | _, _ => none

/-- A reactor just constructed. -/
def initial (now : ℕ) : IoUringReactor :=
  { timers := .initial now }

end IoUringReactor

end Reactor
end Katana
