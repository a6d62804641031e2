/-
Module: Bunx.Http2.Connection
Purpose: The life of an HTTP/2 client session: requests are attached, data comes from the socket,
  streams are delivered, and the session fails or is aborted
  (src/http/h2_client/ClientSession.rs).
Trusted boundary: what the requests' clients and the signals answer is given by `Delivery` and
  `Environment`; `none` is a panic or a loop that does not end. Timers, the pool and the display of
  requests are not modelled.
Main exports: Delivery, Environment, attach, adopt, enqueue, drainPending, onClose, failAll,
  detachWithFailure, abortByHttpId, deliverStream, deliverAll, replenishWindow, onData, onWritable,
  onIdleData, streamBodyByHttpId, start, Act, Step, Reachable
-/
import Bunx.Http2.Dispatch
import Bunx.Lib.Run

namespace Bunx.Http2

open Lib
open Websocket (toBeBytes)

inductive HeaderResult where
  | ContinueStreaming
  | Finished
deriving DecidableEq, Repr

/-- What the client of a stream answers while the stream is delivered. -/
structure Delivery where
  aborted : Bool := false
  /-- `h2_retries < MAX_H2_RETRIES`. -/
  mayRetry : Bool := false
  applyHeaders : Except Error HeaderResult := .ok .ContinueStreaming
  isRedirectPending : Bool := false
  /-- `response_stage == Body`. -/
  responseStageBody : Bool := true
  handleResponseBody : Except Error Bool := .ok true
  isDone : Bool := false
  contentLength : Option Nat := none
  /-- Requests that its callbacks hand to the session. -/
  adopts : List Client := []

/-- What is answered from outside while the session handles an event. -/
structure Environment where
  deliveries : List Delivery := []
  /-- The abort signals when the parked requests are attached, and when those are that were parked
  during delivery. -/
  aborted : Nat → Bool := fun _ => false
  abortedLater : Nat → Bool := fun _ => false

/-- The body can be sent again. -/
def HTTPRequestBody.isBytes : HTTPRequestBody → Bool
  | .bytes _ => true
  | _ => false

namespace Session

variable {hp : Hpack}

/-! ### The end of a session -/

/-- Every request gets its terminal answer. -/
def onClose (s : Session hp) (error : Error) : Session hp :=
  let t := s.pendingAttach.foldl (fun t client => t.answer client (.failed error))
    { s with pendingAttach := [] }
  let t := s.streams.foldl (fun t entry => t.answer? entry.2.client (.failed error)) t
  { t with streams := [] }

def failAll (s : Session hp) (error : Error) : Session hp :=
  let s := s.fail (s.fatalError.getD error)
  let s :=
    if s.socket.closedOrHasError then s
    else
      (s.writeFrame .goaway 0 0
        (toBeBytes 4 0 ++ toBeBytes 4 (errorCodeFor error).value)).flush.1
  s.onClose error

/-! ### Requests come -/

/-- The stream of a new request. -/
def newStream (s : Session hp) (client : Client) : Stream where
  id := s.nextStreamId
  client := some client
  sendWindow := ↑(min s.remoteInitialWindowSize MAX_WINDOW_SIZE)

/-- Opens a stream for a request and sends what can be sent of it. -/
def attach (s : Session hp) (client : Client) : Option (Session hp) :=
  let stream := s.newStream client
  let s := { s with nextStreamId := saturatingAdd s.nextStreamId 2 }
  let s := s.putStream stream
  let s := if s.prefaceSent then s else s.writePreface
  do
    let (s, stream, encoded) ← s.writeRequest client stream
    if encoded then
      let (s, flushed) := (s.putStream stream).flush
      some (if flushed then s else s.failAll .WriteFailed)
    else
      -- The tables of both sides differ now: no more streams on this connection.
      let s := { s with encoderPoisoned := true, streams := s.streams.swapRemove stream.id }
      let s := s.answer client (.failed .UnableToEncode)
      let s := s.pendingAttach.foldl (fun t client => t.answer client .retriedAfterCoalesce)
        { s with pendingAttach := [] }
      some s.flush.1

/-- A request is parked until the session can take it. -/
def enqueue (s : Session hp) (client : Client) : Session hp :=
  { s.record (.adopted client.asyncHttpId) with pendingAttach := s.pendingAttach ++ [client] }

def adopt (s : Session hp) (client : Client) : Option (Session hp) :=
  if s.delivering || !s.settingsReceived then some (s.enqueue client)
  else
    let s := s.record (.adopted client.asyncHttpId)
    if s.hasHeadroom then s.attach client
    else some (s.answer client .retriedAfterCoalesce)

/-- One of the parked requests. -/
def drainWaiter (aborted : Nat → Bool) (s : Session hp) (client : Client) :
    Option (Session hp) :=
  match s.fatalError with
  | some error => some (s.answer client (.failed error))
  | none =>
      if aborted client.asyncHttpId then some (s.answer client (.failed .Aborted))
      else if s.hasHeadroom then s.attach client
      else some (s.answer client .retriedAfterCoalesce)

def drainPending (s : Session hp) (aborted : Nat → Bool) : Option (Session hp) :=
  if !s.settingsReceived || s.pendingAttach.isEmpty then some s
  else s.pendingAttach.foldlM (drainWaiter aborted) { s with pendingAttach := [] }

/-! ### Requests are aborted -/

/-- Resets and forgets a stream, and fails its request. -/
def detachWithFailure (s : Session hp) (stream : Stream) (error : Error) : Session hp :=
  let (s, stream) := s.rstStream stream .cancel
  let s := (s.putStream stream).flush.1
  (s.removeStream stream).answer? stream.client (.failed error)

/-- The stream of the request with the given number. -/
def streamOf (s : Session hp) (asyncHttpId : Nat) : Option Stream :=
  s.streams.values.find? fun stream =>
    stream.client.any fun client => client.asyncHttpId == asyncHttpId

/-- `Vec::swap_remove`. -/
def swapRemoveAt (clients : List Client) (i : Nat) : List Client :=
  match clients.getLast? with
  | none => clients
  | some last => (clients.set i last).dropLast

def abortByHttpId (s : Session hp) (asyncHttpId : Nat) : Session hp :=
  let found := s.pendingAttach.findIdx fun client => client.asyncHttpId == asyncHttpId
  match s.pendingAttach[found]? with
  | some client =>
      { s with pendingAttach := swapRemoveAt s.pendingAttach found }.answer client
        (.failed .Aborted)
  | none =>
      match s.streamOf asyncHttpId with
      | none => s
      | some stream => s.detachWithFailure stream .Aborted

/-- The loop of `reap_aborted`. -/
def reapAbortedLoop (aborted : Nat → Bool) : Nat → Nat → Session hp → Session hp
  | 0, _, s => s
  | fuel + 1, i, s =>
      match s.streams[i]? with
      | none => s
      | some (_, stream) =>
          if stream.client.any fun client => aborted client.asyncHttpId then
            reapAbortedLoop aborted fuel i (s.detachWithFailure stream .Aborted)
          else reapAbortedLoop aborted fuel (i + 1) s

def reapAborted (s : Session hp) (aborted : Nat → Bool) : Session hp :=
  reapAbortedLoop aborted s.streams.length 0 s

/-! ### Responses go -/

/-- The stream is reset and its client gets a terminal answer. -/
def abandon (s : Session hp) (stream : Stream) (client : Client) (answer : Answer) :
    Session hp × Stream × Bool :=
  let (s, stream) := s.rstStream stream .cancel
  (s.flush.1.answer client answer, { stream with client := none }, true)

/-- Checks the announced length of a response that is complete. -/
def finishStream (s : Session hp) (stream : Stream) (client : Client)
    (contentLength : Option Nat) : Session hp × Stream × Bool :=
  let mismatch := contentLength.any fun length => stream.dataBytesReceived != length
  (s.answer client (if mismatch then .failed .HTTP2ContentLengthMismatch else .finished),
    { stream with client := none }, true)

/-- The body bytes of a stream. -/
def deliverBody (s : Session hp) (stream : Stream) (client : Client) (delivery : Delivery) :
    Session hp × Stream × Bool :=
  if !delivery.responseStageBody then (s, stream, false)
  else if !stream.bodyBuffer.isEmpty then
    match delivery.handleResponseBody with
    | .error error => s.abandon { stream with bodyBuffer := [] } client (.failed error)
    | .ok report =>
        let stream := { stream with bodyBuffer := [] }
        if stream.remoteClosed then s.finishStream stream client delivery.contentLength
        else if report && delivery.isDone then
          (s.answer client .finished, { stream with client := none }, true)
        else (s, stream, false)
  else if stream.remoteClosed then s.finishStream stream client delivery.contentLength
  else (s, stream, false)

/-- Hands a stream to its client; `true` when the stream is finished. -/
def deliverStream (s : Session hp) (stream : Stream) (delivery : Delivery) :
    Session hp × Stream × Bool :=
  match stream.client with
  | none => (s, stream, true)
  | some client =>
      if delivery.aborted then s.abandon stream client (.failed .Aborted)
      else
        match stream.fatalError with
        | some error =>
            let retry := error == .HTTP2RefusedStream && stream.statusCode == 0 &&
              delivery.mayRetry && client.body.isBytes
            (s.answer client (if retry then .retried else .failed error),
              { stream with client := none }, true)
        | none =>
            if stream.headersReady then
              let stream := { stream with headersReady := false }
              match delivery.applyHeaders with
              | .error error => s.abandon stream client (.failed error)
              | .ok result =>
                  if delivery.isRedirectPending then s.abandon stream client .redirected
                  else if result = .Finished || (stream.remoteClosed && stream.bodyBuffer.isEmpty)
                  then
                    s.finishStream stream client
                      (if result = .Finished then some 0 else delivery.contentLength)
                  else s.deliverBody stream client delivery
            else s.deliverBody stream client delivery

/-- The requests that callbacks of a delivery hand to the session are parked. -/
def adoptAll (s : Session hp) (clients : List Client) : Session hp :=
  clients.foldl enqueue s

/-- The deliver loop of `on_data`, from an index on; whether a stream was reset. -/
def deliverLoop : Nat → Nat → Bool → List Delivery → Session hp → Option (Session hp × Bool)
  | 0, _, _, _, _ => none
  | fuel + 1, i, rstAny, deliveries, s =>
      match s.streams[i]? with
      | none => some (s, rstAny)
      | some (_, stream) =>
          let delivery := deliveries.headD {}
          let delivered := s.deliverStream stream delivery
          let t := delivered.1.adoptAll delivery.adopts
          if delivered.2.2 then
            let isOpen := delivered.2.1.state != .Closed
            let (t, stream) :=
              if isOpen then t.rstStream delivered.2.1 .cancel else (t, delivered.2.1)
            deliverLoop fuel i (rstAny || isOpen) deliveries.tail
              ((t.putStream stream).removeStream stream)
          else deliverLoop fuel (i + 1) rstAny deliveries.tail (t.putStream delivered.2.1)

def deliverAll (s : Session hp) (deliveries : List Delivery) : Option (Session hp × Bool) :=
  deliverLoop (s.streams.length + 1) 0 false deliveries s

/-! ### The receive windows -/

/-- From how many consumed bytes on a window is replenished. -/
def threshold : Nat := LOCAL_INITIAL_WINDOW_SIZE / 2

/-- A stream whose window is to be replenished. -/
def wantsUpdate (stream : Stream) : Bool :=
  decide (threshold ≤ stream.unackedBytes) && !stream.remoteClosed

def replenishWindow (s : Session hp) : Session hp :=
  let s :=
    if threshold ≤ s.connUnackedBytes then
      { s.writeWindowUpdate 0 s.connUnackedBytes with connUnackedBytes := 0 }
    else s
  let updates := s.streams.values.filter wantsUpdate
  let t := { s with
    streams := s.streams.map fun entry =>
      (entry.1, if wantsUpdate entry.2 then { entry.2 with unackedBytes := 0 } else entry.2) }
  updates.foldl (fun t stream => t.writeWindowUpdate stream.id stream.unackedBytes) t

/-! ### Events of the socket -/

/-- The first part of `on_data`: the complete frames are dispatched and the rest is kept. -/
def readFrames (s : Session hp) (incoming : Bytes) : Option (Session hp) := do
  let s := s.record (.arrived incoming)
  if s.readBuffer.isEmpty then
    let (s, rest) ← s.parseFrames incoming
    some (if s.fatalError.isNone then { s with readBuffer := s.readBuffer ++ rest } else s)
  else
    let s := { s with readBuffer := s.readBuffer ++ incoming }
    let (s, rest) ← s.parseFrames s.readBuffer
    some { s with readBuffer := rest }

/-- What `on_data` does once the streams are delivered. -/
def finishData (s : Session hp) (rstAny : Bool) (aborted : Nat → Bool) : Option (Session hp) :=
  let s := { s with delivering := false }.replenishWindow
  let s := if rstAny || !s.writeBuffer.isEmpty then s.flush.1 else s
  if s.pendingAttach.isEmpty then some s
  else do
    let s ← s.drainPending aborted
    if s.fatalError.isSome then some s
    else
      let (s, flushed) := s.flush
      some (if flushed then s else s.failAll .WriteFailed)

/-- What `on_data` does with a session that has not failed. -/
def serveStreams (s : Session hp) (env : Environment) : Option (Session hp) := do
  let s ← s.drainPending env.aborted
  if s.fatalError.isSome then some s
  else do
    let s ← s.drainSendBodies
    let (s, flushed) := s.flush
    if flushed then do
      let (s, rstAny) ← { s with delivering := true }.deliverAll env.deliveries
      s.finishData rstAny env.abortedLater
    else some (s.failAll .WriteFailed)

def onData (s : Session hp) (incoming : Bytes) (env : Environment) : Option (Session hp) := do
  let s ← { s with streamProgressed := false }.readFrames incoming
  let (s, flushed) := s.flush
  let s := if flushed then s else s.fail .WriteFailed
  match s.fatalError with
  | some error => some (s.failAll error)
  | none => s.serveStreams env

def onWritable (s : Session hp) (aborted : Nat → Bool) : Option (Session hp) :=
  let (s, flushed) := s.flush
  if flushed then do
    let s ← s.drainSendBodies
    let (s, flushed) := s.flush
    some (if flushed then s.reapAborted aborted else s.failAll .WriteFailed)
  else some (s.failAll .WriteFailed)

/-- Data for a session that is parked without requests. -/
def onIdleData (s : Session hp) (incoming : Bytes) : Option (Session hp) := do
  let s := s.record (.arrived incoming)
  let s := { s with readBuffer := s.readBuffer ++ incoming }
  let (s, rest) ← s.parseFrames s.readBuffer
  let (s, flushed) := { s with readBuffer := rest }.flush
  some (if flushed then s else s.fail .WriteFailed)

/-- More of a streamed request body is there, or its end. -/
def streamBodyByHttpId (s : Session hp) (asyncHttpId : Nat) (ended : Bool) :
    Option (Session hp) :=
  match s.streamOf asyncHttpId with
  | none => some s
  | some stream =>
      match stream.client with
      | none => some s
      | some client =>
          match client.body with
          | .stream buffer _ => do
              let (s, stream) ← s.drainSendBody (setBody stream client (.stream buffer ended))
                USIZE_MAX
              let (s, flushed) := (s.putStream stream).flush
              some (if flushed then s else s.failAll .WriteFailed)
          | _ => some s

/-! ### Runs -/

/-- The other thread appends to the body of a request. -/
def appendBody (s : Session hp) (asyncHttpId : Nat) (more : Bytes) : Session hp :=
  match s.streamOf asyncHttpId with
  | none => s
  | some stream =>
      match stream.client with
      | none => s
      | some client =>
          match client.body with
          | .stream (some buffer) ended =>
              s.putStream (setBody stream client (.stream (some (buffer ++ more)) ended))
          | _ => s

/-- A new session with its first request: those that waited for the connection are parked. -/
def start (hp : Hpack) (socket : Socket) (waiters : List Client) (leader : Client) :
    Option (Session hp) :=
  (((create hp socket).adoptAll waiters).record (.adopted leader.asyncHttpId)).attach leader

/-- What can happen to a session. -/
inductive Act (s : Session hp) : Session hp → Prop where
  | socket (socket : Socket) : Act s { s with socket := socket }
  | adopt {t : Session hp} (client : Client) (goes : s.adopt client = some t) : Act s t
  | enqueue (client : Client) : Act s (s.enqueue client)
  | onData {t : Session hp} (incoming : Bytes) (env : Environment)
      (goes : s.onData incoming env = some t) : Act s t
  | onWritable {t : Session hp} (aborted : Nat → Bool)
      (goes : s.onWritable aborted = some t) : Act s t
  | onIdleData {t : Session hp} (incoming : Bytes)
      (goes : s.onIdleData incoming = some t) : Act s t
  | abortByHttpId (asyncHttpId : Nat) : Act s (s.abortByHttpId asyncHttpId)
  | streamBodyByHttpId {t : Session hp} (asyncHttpId : Nat) (ended : Bool)
      (goes : s.streamBodyByHttpId asyncHttpId ended = some t) : Act s t
  | appendBody (asyncHttpId : Nat) (more : Bytes) : Act s (s.appendBody asyncHttpId more)

/-- A session that has failed is over, as is one that was closed. -/
def Step (s t : Session hp) : Prop := s.fatalError = none ∧ Act s t

/-- A state of some run of some session. -/
def Reachable (s : Session hp) : Prop :=
  ∃ socket waiters leader first,
    start hp socket waiters leader = some first ∧ Run Step first s

end Session

end Bunx.Http2
