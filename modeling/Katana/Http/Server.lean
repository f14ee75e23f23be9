import Katana.Http.Parser
import Katana.Http.Response

/-!
# The connection handler

`handle_connection` reads, parses, dispatches and writes until it would block.
What the environment does is an input: the outcome of every socket operation and
the responses of the dispatcher.  The socket is represented by the bytes it has
accepted.  A string that has been moved from is taken to be empty; the code
clears it before it is read again.  Counters and debug output are left out.
-/

namespace Katana
namespace Http

open Library

def SMALL_CONTIGUOUS_RESPONSE_BODY_THRESHOLD : ℕ := 256
def PIPELINE_RESPONSE_BATCH_LIMIT : ℕ := 64 * 1024
def READ_SPAN_SIZE : ℕ := 4096

inductive EventType where
  | readable | writable
  deriving DecidableEq

inductive FlushResult where
  | complete | blocked | error
  deriving DecidableEq

/-- Outcome of a write: so many bytes were accepted, none of them if it would
block.  Also a write that fails may have sent some bytes before. -/
inductive WriteResult where
  | accepted (count : ℕ)
  | failed (count : ℕ)

/-- Outcome of a read: an empty span stands for a read that would block. -/
inductive ReadResult where
  | received (data : List Byte)
  | wouldBlock
  | eof
  | failed

/-- What one pass over the loop of `handle_connection` may take from its
environment. -/
structure Environment where
  read : ReadResult
  response : Response
  writes : List WriteResult

/-- One answer: a response and whether the connection is to be closed after it. -/
structure Answer where
  response : Response
  closeRequested : Bool

structure Connection where
  socket : List Byte := []
  activeResponse : List Byte := []
  activeResponseBody : List Byte := []
  queuedResponse : List Byte := []
  queuedResponseBody : List Byte := []
  responseScratch : List Byte := []
  writePos : ℕ := 0
  httpParser : Parser := {}
  watch : Bool := true
  closeRequested : Bool := false
  activeResponseCompletedRequests : ℕ := 0
  queuedCloseRequested : Bool := false
  queuedResponseCompletedRequests : ℕ := 0
  watchEvents : EventType := .readable

/-- `prepare_response_storage`: head and body of the storage. -/
def prepareResponseStorage (resp : Response) : List Byte × List Byte :=
  if resp.chunked || resp.body.length ≤ SMALL_CONTIGUOUS_RESPONSE_BODY_THRESHOLD then
    (resp.serializeInto, [])
  else (resp.serializeHeadInto, resp.body)

namespace Connection

def pendingResponseBytes (c : Connection) : ℕ :=
  c.activeResponse.length + c.activeResponseBody.length

def hasPendingResponse (c : Connection) : Bool :=
  c.writePos < c.pendingResponseBytes

def queuedResponseBytes (c : Connection) : ℕ :=
  c.queuedResponse.length + c.queuedResponseBody.length

def hasQueuedResponse (c : Connection) : Bool :=
  c.queuedResponseBytes ≠ 0 || c.queuedResponseCompletedRequests ≠ 0

def setWatchEvents (events : EventType) (c : Connection) : Connection :=
  if !c.watch || c.watchEvents = events then c else { c with watchEvents := events }

def resetWatch (c : Connection) : Connection :=
  { c with watch := false }

/-! ## Writing -/

/-- The bytes handed to `write` or `writev`. -/
def offered (c : Connection) : List Byte :=
  if c.activeResponseBody = [] then c.activeResponse.drop c.writePos
  else if c.writePos < c.activeResponse.length then
    c.activeResponse.drop c.writePos ++ c.activeResponseBody
  else c.activeResponseBody.drop (c.writePos - c.activeResponse.length)

/-- The loop of `flush_active_response`.  There is no result if the outcomes run
out or if one accepts more bytes than were offered. -/
def flushActiveResponse : List WriteResult → Connection →
    Option (Connection × FlushResult × List WriteResult)
  | writes, c =>
      if c.writePos < c.pendingResponseBytes then
        match writes with
        | [] => none
        | .failed count :: writes =>
            if count ≤ c.offered.length then
              some ({ c with socket := c.socket ++ c.offered.take count }, .error, writes)
            else none
        | .accepted count :: writes =>
            if count = 0 then some (c, .blocked, writes)
            else if count ≤ c.offered.length then
              flushActiveResponse writes
                { c with
                  socket := c.socket ++ c.offered.take count
                  writePos := c.writePos + count }
            else none
      else
        some ({ c with activeResponse := [], activeResponseBody := [], writePos := 0 },
          .complete, writes)

def prepareActiveResponse (resp : Response) (c : Connection) : Connection :=
  { c with
    activeResponse := (prepareResponseStorage resp).1
    activeResponseBody := (prepareResponseStorage resp).2 }

def resetForNextRequest (c : Connection) : Connection :=
  { c with httpParser := c.httpParser.prepareForNextRequest }

def clearQueuedResponse (c : Connection) : Connection :=
  { c with
    queuedResponse := [], queuedResponseBody := [], queuedCloseRequested := false
    queuedResponseCompletedRequests := 0 }

def promoteQueuedResponse (c : Connection) : Connection :=
  clearQueuedResponse
    { c with
      activeResponse := c.queuedResponse
      activeResponseBody := c.queuedResponseBody
      writePos := 0
      closeRequested := c.queuedCloseRequested
      activeResponseCompletedRequests := c.queuedResponseCompletedRequests }

def queuePreparedResponse (closeRequested : Bool) (completedRequests : ℕ) (c : Connection) :
    Connection :=
  { c with
    queuedResponse := c.responseScratch
    queuedResponseBody := []
    queuedCloseRequested := closeRequested
    queuedResponseCompletedRequests := completedRequests
    responseScratch := [] }

def queueResponse (resp : Response) (closeRequested : Bool) (completedRequests : ℕ)
    (c : Connection) : Connection :=
  { c with
    queuedResponse := (prepareResponseStorage resp).1
    queuedResponseBody := (prepareResponseStorage resp).2
    queuedCloseRequested := closeRequested
    queuedResponseCompletedRequests := completedRequests }

/-- After a response that leaves the connection open. -/
def nextResponse (c : Connection) : Connection :=
  let c := { c with closeRequested := false }
  if c.hasQueuedResponse then c.promoteQueuedResponse else c

/-- One pass over the loop of `flush_ready_responses`. -/
def flushPass (s : Connection × List WriteResult) :
    Pass (Connection × List WriteResult) (Option (Connection × Bool)) :=
  if !s.1.hasPendingResponse then .done (some (s.1, true))
  else
    match flushActiveResponse s.2 s.1 with
    | none => .done none
    | some (c, .blocked, _) => .done (some (c.setWatchEvents .writable, false))
    | some (c, .error, _) => .done (some (c.resetWatch, false))
    | some (c, .complete, writes) =>
        if c.closeRequested then
          .done (some (resetWatch { c with activeResponseCompletedRequests := 0 }, false))
        else .again (nextResponse { c with activeResponseCompletedRequests := 0 }, writes)

/-- Whether everything has been written, and the connection afterwards. -/
def flushReadyResponses (writes : List WriteResult) (c : Connection) :
    Option (Connection × Bool) :=
  evalLoop flushPass (fun s => s.2.length) (fun _ => none) (c, writes)

/-! ## One event -/

/-- The answer to a request that cannot be parsed. -/
def parseErrorResponse : Response :=
  let resp := Response.assignError (ProblemDetails.badRequest (bytesOf "Invalid HTTP request"))
  { resp with headers := resp.headers.setKnownBorrowed .connection (.owned (bytesOf "close")) }

def closeWithParseError (writes : List WriteResult) (c : Connection) : Option Connection :=
  if c.hasPendingResponse || c.hasQueuedResponse then
    match (c.queueResponse parseErrorResponse true 0).flushReadyResponses writes with
    | none => none
    | some (c, false) => some c
    | some (c, true) => some c.resetWatch
  else
    let c := c.prepareActiveResponse parseErrorResponse
    (({ c with
        writePos := 0, closeRequested := true
        activeResponseCompletedRequests := 0 } : Connection).flushReadyResponses writes).map (·.1)

/-- The part of `handle_connection` before its loop: whether the loop is entered. -/
def handleEvent (writes : List WriteResult) (c : Connection) : Option (Connection × Bool) :=
  if c.hasPendingResponse then
    match c.flushReadyResponses writes with
    | none => none
    | some (c, false) => some (c, false)
    | some (c, true) =>
        if c.httpParser.bufferedBytes = 0 then some (c.setWatchEvents .readable, false)
        else some (c, true)
  else some (c, true)

/-- Whether the request asks for the connection to be closed. -/
def closeConnection (p : Parser) : Bool :=
  let connectionHeader := (p.request.headers.getField .connection).map (·.read p.buffer)
  connectionHeader.any fun value => value = bytesOf "close" || value = bytesOf "Close"

/-- The response of the dispatcher with its Connection header. -/
def announceConnection (close : Bool) (resp : Response) : Response :=
  if resp.headers.containsField .connection then resp
  else
    { resp with
      headers := resp.headers.setKnownBorrowed .connection
        (.owned (if close then bytesOf "close" else bytesOf "keep-alive")) }

/-- The end of a pass that has written everything: wait for input or go on. -/
def afterFlush (c : Connection) : Connection × Bool :=
  if c.httpParser.bufferedBytes = 0 then (c.setWatchEvents .readable, false) else (c, true)

def flushAndGoOn (writes : List WriteResult) (c : Connection) : Option (Connection × Bool) :=
  match c.flushReadyResponses writes with
  | none => none
  | some (c, false) => some (c, false)
  | some (c, true) => some c.afterFlush

def canBatchSmallResponse (close : Bool) (resp : Response) : Bool :=
  !close && !resp.chunked && resp.body.length ≤ SMALL_CONTIGUOUS_RESPONSE_BODY_THRESHOLD

/-- A response leaves its request: it joins the batch, waits in the queue behind
it, or becomes the active response. -/
def respond (close : Bool) (resp : Response) (writes : List WriteResult) (c : Connection) :
    Option (Connection × Bool) :=
  if canBatchSmallResponse close resp then
    let c := { c with responseScratch := resp.serializeInto }
    if c.pendingResponseBytes + c.responseScratch.length ≤ PIPELINE_RESPONSE_BATCH_LIMIT &&
        !c.hasQueuedResponse then
      let c := { c with
        activeResponse := c.activeResponse ++ c.responseScratch
        activeResponseCompletedRequests := c.activeResponseCompletedRequests + 1 }
      let c := c.resetForNextRequest
      if c.httpParser.bufferedBytes ≠ 0 then some (c, true) else c.flushAndGoOn writes
    else if c.hasPendingResponse then
      (c.queuePreparedResponse false 1).resetForNextRequest.flushAndGoOn writes
    else
      let c := { c with
        activeResponse := c.responseScratch, activeResponseBody := [], responseScratch := []
        writePos := 0, closeRequested := false, activeResponseCompletedRequests := 1 }
      c.resetForNextRequest.flushAndGoOn writes
  else if c.hasPendingResponse then
    (c.queueResponse resp close 1).resetForNextRequest.flushAndGoOn writes
  else
    let c := ({ c with closeRequested := close } : Connection).prepareActiveResponse resp
    let c := { c with writePos := 0, activeResponseCompletedRequests := 1 }
    c.resetForNextRequest.flushAndGoOn writes

/-- Reading more input for an incomplete request. -/
def readInput (env : Environment) (c : Connection) : Option (Connection × Bool × List Answer) :=
  match c.httpParser.writableInputSpan READ_SPAN_SIZE with
  | (p, .error _) => some (({ c with httpParser := p } : Connection).resetWatch, false, [])
  | (p, .ok _) =>
      let c := { c with httpParser := p }
      match env.read with
      | .wouldBlock => some (c.setWatchEvents .readable, false, [])
      | .eof => some (c.resetWatch, false, [])
      | .failed => some (c.resetWatch, false, [])
      | .received data =>
          if data.length = 0 || data.length > READ_SPAN_SIZE then none
          else
            match c.httpParser.commitInput data with
            | (p, .error _) =>
                (({ c with httpParser := p } : Connection).closeWithParseError env.writes).map
                  (·, false, [⟨parseErrorResponse, true⟩])
            | (p, .ok _) => some ({ c with httpParser := p }, true, [])

/-- One pass over the loop of `handle_connection`: whether the loop goes on, and
the answers given. -/
def iterate (env : Environment) (c : Connection) : Option (Connection × Bool × List Answer) :=
  match c.httpParser.parseAvailable with
  | (p, .error _) =>
      (({ c with httpParser := p } : Connection).closeWithParseError env.writes).map
        (·, false, [⟨parseErrorResponse, true⟩])
  | (p, .ok _) =>
      let c := { c with httpParser := p }
      if c.httpParser.state ≠ .complete then c.readInput env
      else
        let close := closeConnection c.httpParser
        let resp := announceConnection close env.response
        (c.respond close resp env.writes).map fun result =>
          (result.1, result.2, [⟨resp, close⟩])

end Connection

/-! ## Runs -/

/-- A connection, whether its handler is running, and the answers given so far. -/
structure Exchange where
  connection : Connection := {}
  looping : Bool := false
  answers : List Answer := []

inductive ServerLabel where
  | event (writes : List WriteResult)
  | pass (env : Environment)

/-- The watch calls the handler; the handler runs pass by pass. -/
def Exchange.step (s : Exchange) : ServerLabel → Option Exchange
  | .event writes =>
      if s.looping || !s.connection.watch then none
      else
        (s.connection.handleEvent writes).map fun result =>
          { s with connection := result.1, looping := result.2 }
  | .pass env =>
      if s.looping then
        (s.connection.iterate env).map fun result =>
          { connection := result.1, looping := result.2.1, answers := s.answers ++ result.2.2 }
      else none

end Http
end Katana
