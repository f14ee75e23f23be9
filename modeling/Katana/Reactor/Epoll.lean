import Katana.Timer.Wheel

/-!
# Timeouts of the epoll reactor

The registrations of `epoll_reactor` and the timers behind them.  The wheel timer
runs as modelled; when one of its callbacks is invoked, `handle_fd_timeout` runs
for the descriptor that the callback was made for.  Time points are in
nanoseconds, durations of type `milliseconds`.  Every step that reads the clock
carries what the clock showed, and the results of `epoll_ctl` are given with the
call.  Entries of `fd_states_` that do not exist are like entries that are empty.
-/

namespace Katana
namespace Reactor

open Library Timer

def SIZE_WORD : ℕ := 2 ^ 64

def DEFERRED_CLOSES : ℕ := 2048

def INLINE_THRESHOLD : ℕ := 2

def MAX_BATCH : ℕ := 2

structure Events where
  readable : Bool := false
  writable : Bool := false

structure TimeoutConfig where
  readTimeout : Int64 := 30000
  writeTimeout : Int64 := 30000
  idleTimeout : Int64 := 60000

structure FdState where
  callback : Bool := false
  events : Events := {}
  hasTimeout : Bool := false
  timeoutId : ℕ := 0
  timeoutInterval : Int64 := 0
  lastActivity : ℕ := 0
  timeouts : TimeoutConfig := {}

/-- Where `handle_fd_timeout` stands: it has been entered for a descriptor, or it
is in the callback of the registration. -/
inductive Handling where
  | none
  | entered (fd : ℕ)
  | callback (fd : ℕ)
  deriving DecidableEq

structure EpollReactor where
  fdStates : ℕ → FdState := fun _ => {}
  timers : TimerRun 2048 8
  /-- The descriptor for which a timer was added. -/
  timerFd : ℕ → ℕ := fun _ => 0
  handling : Handling := .none
  deferredCloses : List ℕ := []
  inlineBudget : ℕ := INLINE_THRESHOLD
  activeFds : ℕ := 0
  /-- What the clock showed last. -/
  clock : ℕ := 0

inductive ReactorLabel where
  | registerFd (fd : ℕ) (events : Events) (now : ℕ) (epollOk : Bool)
  | registerFdWithTimeout (fd : ℕ) (events : Events) (config : TimeoutConfig) (now : ℕ)
      (epollOk : Bool)
  | modifyFd (fd : ℕ) (events : Events) (now : ℕ) (epollOk : Bool)
  | unregisterFd (fd : ℕ) (epollOk : Bool)
  | refreshFdTimeout (fd : ℕ) (now : ℕ)
  | tick (now : ℕ)
  | proceed
  | handleFdTimeout (now : ℕ)
  | callbackDone
  | flushDeferredCloses

def fdTimeoutFor (state : FdState) : Int64 :=
  let timeout := state.timeouts.idleTimeout
  let timeout :=
    if state.events.readable then
      if state.timeouts.readTimeout < timeout then state.timeouts.readTimeout else timeout
    else timeout
  let timeout :=
    if state.events.writable then
      if state.timeouts.writeTimeout < timeout then state.timeouts.writeTimeout else timeout
    else timeout
  if timeout.toInt ≤ 0 then 1 else timeout

namespace EpollReactor

def setFd (fd : ℕ) (state : FdState) (s : EpollReactor) : EpollReactor :=
  { s with fdStates := Function.update s.fdStates fd state }

/-- `wheel_timer_.add` with a callback for the descriptor. -/
def addTimer (timeout : Int64) (fd : ℕ) (s : EpollReactor) : Option (ℕ × EpollReactor) :=
  (s.timers.step (.add timeout)).map fun timers =>
    (timers.history.ids s.timers.history.adds,
      { s with
        timers := timers
        timerFd := Function.update s.timerFd s.timers.history.adds fd })

def scheduleFdTimeout (fd : ℕ) (state : FdState) (now : ℕ) (s : EpollReactor) :
    Option (FdState × EpollReactor) :=
  let state := { state with timeoutInterval := fdTimeoutFor state, lastActivity := now }
  (s.addTimer state.timeoutInterval fd).map fun result =>
    ({ state with timeoutId := result.1 }, result.2)

def cancelFdTimeout (state : FdState) (s : EpollReactor) : Option (FdState × EpollReactor) :=
  if state.timeoutId ≠ 0 then
    (s.timers.step (.cancel state.timeoutId)).map fun timers =>
      ({ state with timeoutId := 0 }, { s with timers := timers })
  else some (state, s)

def registerFd (fd : ℕ) (events : Events) (now : ℕ) (epollOk : Bool) (s : EpollReactor) :
    EpollReactor :=
  if epollOk then
    { s.setFd fd { callback := true, events := events, lastActivity := now } with
      activeFds := (s.activeFds + 1) % SIZE_WORD }
  else s

def registerFdWithTimeout (fd : ℕ) (events : Events) (config : TimeoutConfig) (now : ℕ)
    (epollOk : Bool) (s : EpollReactor) : Option EpollReactor :=
  let state : FdState :=
    { callback := true, events := events, timeouts := config, hasTimeout := true }
  match s.scheduleFdTimeout fd state now with
  | none => none
  | some (state, s) =>
      if epollOk then
        some { s.setFd fd state with activeFds := (s.activeFds + 1) % SIZE_WORD }
      else (s.cancelFdTimeout state).map (·.2)

def modifyFd (fd : ℕ) (events : Events) (now : ℕ) (epollOk : Bool) (s : EpollReactor) :
    Option EpollReactor :=
  if !(s.fdStates fd).callback || !epollOk then some s
  else
    let state := { s.fdStates fd with events := events }
    if state.hasTimeout then
      match s.cancelFdTimeout state with
      | none => none
      | some (state, s) => (s.scheduleFdTimeout fd state now).map fun result =>
          result.2.setFd fd result.1
    else some (s.setFd fd state)

def unregisterFd (fd : ℕ) (epollOk : Bool) (s : EpollReactor) : Option EpollReactor :=
  if !(s.fdStates fd).callback then some s
  else
    match s.cancelFdTimeout (s.fdStates fd) with
    | none => none
    | some (state, s) =>
        if epollOk then
          some { s.setFd fd {} with activeFds := (s.activeFds + (SIZE_WORD - 1)) % SIZE_WORD }
        else some (s.setFd fd state)

def refreshFdTimeout (fd : ℕ) (now : ℕ) (s : EpollReactor) : EpollReactor :=
  if (s.fdStates fd).hasTimeout then s.setFd fd { s.fdStates fd with lastActivity := now } else s

def closeFdImmediate (fd : ℕ) (s : EpollReactor) : EpollReactor :=
  { s.setFd fd {} with activeFds := (s.activeFds + (SIZE_WORD - 1)) % SIZE_WORD }

def queueFdClose (fd : ℕ) (s : EpollReactor) : EpollReactor :=
  if 0 < s.inlineBudget && s.deferredCloses.isEmpty then
    { s with inlineBudget := s.inlineBudget - 1 }.closeFdImmediate fd
  else
    let s := { s with inlineBudget := INLINE_THRESHOLD }
    if s.deferredCloses.length < DEFERRED_CLOSES then
      { s with deferredCloses := s.deferredCloses ++ [fd] }
    else s.closeFdImmediate fd

def flushDeferredCloses (s : EpollReactor) : EpollReactor :=
  (s.deferredCloses.take MAX_BATCH).foldl (fun s fd => s.closeFdImmediate fd)
    { s with deferredCloses := s.deferredCloses.drop MAX_BATCH }

/-- `handle_fd_timeout` up to the callback of the registration, if it is invoked. -/
def handleFdTimeout (fd : ℕ) (now : ℕ) (s : EpollReactor) : Option EpollReactor :=
  let state := s.fdStates fd
  if !state.callback || !state.hasTimeout then some { s with handling := .none }
  else
    let elapsed : ℤ := now - state.lastActivity
    if state.timeoutInterval.toInt ≤ elapsed then
      some { s.setFd fd { state with callback := false, hasTimeout := false, timeoutId := 0 } with
        handling := .callback fd }
    else
      let remaining : ℤ := state.timeoutInterval.toInt - elapsed
      (s.addTimer (Int64.ofInt (remaining / 1000000)) fd).map fun result =>
        { result.2.setFd fd { state with timeoutId := result.1 } with handling := .none }

/-- Code outside the reactor is running: between its steps or in a callback. -/
def outside (s : EpollReactor) : Bool :=
  match s.handling, s.timers.activity with
  | .callback _, _ => true
  | .none, .idle => true
  | _, _ => false

/-- The wheel timer goes on; where it invokes a callback, `handle_fd_timeout` is
entered. -/
def proceed (s : EpollReactor) : Option EpollReactor :=
  (s.timers.step .proceed).map fun timers =>
    { s with
      timers := timers
      handling :=
        match timers.activity, timers.history.invoked.getLast? with
        | .calling _ _ _, some (timer, _) => .entered (s.timerFd timer)
        | _, _ => .none }

def step (s : EpollReactor) : ReactorLabel → Option EpollReactor
  | .registerFd fd events now epollOk =>
      if s.outside && s.clock ≤ now then some ({ s with clock := now }.registerFd fd events now epollOk)
      else none
  | .registerFdWithTimeout fd events config now epollOk =>
      if s.outside && s.clock ≤ now then
        { s with clock := now }.registerFdWithTimeout fd events config now epollOk
      else none
  | .modifyFd fd events now epollOk =>
      if s.outside && s.clock ≤ now then { s with clock := now }.modifyFd fd events now epollOk
      else none
  | .unregisterFd fd epollOk => if s.outside then s.unregisterFd fd epollOk else none
  | .refreshFdTimeout fd now =>
      if s.outside && s.clock ≤ now then some ({ s with clock := now }.refreshFdTimeout fd now)
      else none
  | .tick now =>
      if s.handling = .none && s.clock ≤ now then
        (s.timers.step (.tick now)).map fun timers => { s with timers := timers, clock := now }
      else none
  | .proceed => if s.handling = .none then s.proceed else none
  | .handleFdTimeout now =>
      match s.handling with
      | .entered fd => if s.clock ≤ now then { s with clock := now }.handleFdTimeout fd now else none
      | _ => none
  | .callbackDone =>
      match s.handling with
      | .callback fd => some ({ s with handling := .none }.queueFdClose fd)
      | _ => none
  | .flushDeferredCloses =>
      match s.handling, s.timers.activity with
      | .none, .idle => some s.flushDeferredCloses
      | _, _ => none

/-- A reactor just constructed. -/
def initial (now : ℕ) : EpollReactor :=
  { timers := .initial now, clock := now }

end EpollReactor

end Reactor
end Katana
