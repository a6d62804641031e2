/-
Module: Bunx.Http2.Session
Purpose: The streams and the connection state of the HTTP/2 client, and the operations that
  queue frames, flush them and remove streams (src/http/h2_client/Stream.rs, ClientSession.rs).
Trusted boundary: the HPACK coder is a parameter; what the socket answers is a script; the log
  is a history that no function reads. Timeouts, reference counts and the registry of sessions
  are not modelled.
Main exports: Error, errorCodeFor, Hpack, HTTPRequestBody, Client, State, Stream, Event, Session,
  Session.create, hasHeadroom, writeFrame, writeWindowUpdate, rstStream, removeStream,
  flush
-/
import Bunx.Http2.Wire
import Bunx.Lib.OrderedMap

namespace Bunx.Http2

open Lib
open Websocket (toBeBytes)

/-! ### Constants of the client -/

/-- Advertised as SETTINGS_INITIAL_WINDOW_SIZE. -/
def LOCAL_INITIAL_WINDOW_SIZE : Nat := 16777216
def LOCAL_MAX_HEADER_LIST_SIZE : Nat := 256 * 1024
def WRITE_BUFFER_HIGH_WATER : Nat := 256 * 1024
def WRITE_BUFFER_CONTROL_LIMIT : Nat := 1024 * 1024

inductive Error where
  | HTTP2ProtocolError
  | HTTP2FrameSizeError
  | HTTP2FlowControlError
  | HTTP2CompressionError
  | HTTP2HeaderListTooLarge
  | HTTP2EnhanceYourCalm
  | HTTP2StreamReset
  | HTTP2RefusedStream
  | HTTP2GoAway
  | HTTP2ContentLengthMismatch
  | Aborted
  | WriteFailed
  | UnableToEncode
  /-- An error of the code that handles responses. -/
  | other (code : Nat)
deriving DecidableEq, Repr

def errorCodeFor : Error → ErrorCode
  | .HTTP2ProtocolError => .protocolError
  | .HTTP2FrameSizeError => .frameSizeError
  | .HTTP2FlowControlError => .flowControlError
  | .HTTP2CompressionError => .compressionError
  | .HTTP2HeaderListTooLarge => .enhanceYourCalm
  | .HTTP2EnhanceYourCalm => .enhanceYourCalm
  | _ => .internalError

/-! ### The HPACK coder -/

/-- A header field that the coder found in front of a block. -/
structure RawHeader where
  /-- Where the next field begins; zero when there is none. -/
  offset : Nat
  name : Bytes
  value : Bytes
deriving DecidableEq, Repr

/-- The coder of header blocks, with a table for each direction. -/
structure Hpack where
  Decoder : Type
  Encoder : Type
  /-- The tables of a new connection. -/
  initial : Decoder × Encoder
  /-- `lshpack_wrapper_decode`. -/
  wrapperDecode : Decoder → Bytes → RawHeader × Decoder
  /-- `lshpack_wrapper_encode`: the bytes that were written, none on failure. -/
  wrapperEncode : Encoder → Bytes → Bytes → Bool → Bytes × Encoder
  /-- `lshpack_wrapper_enc_set_max_capacity`. -/
  setEncoderMaxCapacity : Encoder → Nat → Encoder

namespace Hpack

/-- `HPACK::decode`; `none` is an error. -/
def decode (hp : Hpack) (decoder : hp.Decoder) (src : Bytes) :
    Option RawHeader × hp.Decoder :=
  let result := hp.wrapperDecode decoder src
  if result.1.offset = 0 then (none, result.2)
  else if result.1.name.length = 0 then (none, result.2)
  else (some result.1, result.2)

/-- `HPACK::encode`; `none` is an error. -/
def encode (hp : Hpack) (encoder : hp.Encoder) (name value : Bytes) (neverIndex : Bool) :
    Option Bytes × hp.Encoder :=
  let result := hp.wrapperEncode encoder name value neverIndex
  if result.1.length = 0 then (none, result.2) else (some result.1, result.2)

end Hpack

/-! ### Requests -/

inductive HTTPRequestBody where
  | bytes (body : Bytes)
  | sendfile
  /-- The part of the body that is there and not yet framed; nothing once it is detached. -/
  | stream (buffer : Option Bytes) (ended : Bool)
deriving DecidableEq, Repr

/-- What the session uses of an `HTTPClient`. -/
structure Client where
  asyncHttpId : Nat
  urlHost : Bytes
  method : Bytes
  path : Bytes
  headers : List (Bytes × Bytes)
  body : HTTPRequestBody
deriving DecidableEq, Repr

/-! ### Streams -/

inductive State where
  | Open
  /-- END_STREAM was written. -/
  | HalfClosedLocal
  /-- The peer has sent END_STREAM. -/
  | HalfClosedRemote
  | Closed
deriving DecidableEq, Repr

structure Stream where
  id : Nat
  /-- Cleared before the client gets its terminal answer. -/
  client : Option Client
  headerBlock : Bytes := []
  bodyBuffer : Bytes := []
  decodedBytes : Bytes := []
  decodedHeaders : List (Bytes × Bytes) := []
  statusCode : Nat := 0
  state : State := .Open
  rstDone : Bool := false
  headersReady : Bool := false
  headersEndStream : Bool := false
  awaitingContinue : Bool := false
  fatalError : Option Error := none
  unackedBytes : Nat := 0
  dataBytesReceived : Nat := 0
  sendWindow : Int
  pendingBody : Bytes := []
deriving DecidableEq, Repr

namespace Stream

def sentEndStream (stream : Stream) : Stream :=
  { stream with
    state := match stream.state with
      | .Open => .HalfClosedLocal
      | .HalfClosedRemote => .Closed
      | other => other }

def recvEndStream (stream : Stream) : Stream :=
  { stream with
    state := match stream.state with
      | .Open => .HalfClosedRemote
      | .HalfClosedLocal => .Closed
      | other => other }

def localClosed (stream : Stream) : Bool :=
  stream.state == .HalfClosedLocal || stream.state == .Closed

def remoteClosed (stream : Stream) : Bool :=
  stream.state == .HalfClosedRemote || stream.state == .Closed

end Stream

/-! ### Sessions -/

/-- How a request leaves the session. -/
inductive Answer where
  | failed (error : Error)
  | retried
  | retriedAfterCoalesce
  | redirected
  | finished
deriving DecidableEq, Repr

/-- What is recorded of a session's dealings. -/
inductive Event where
  /-- The connection preface was queued. -/
  | preface
  /-- A frame was queued. -/
  | queued (frame : Frame)
  /-- The socket took bytes. -/
  | written (bytes : Bytes)
  /-- Bytes came from the socket. -/
  | arrived (bytes : Bytes)
  /-- A complete frame was dispatched. -/
  | received (frame : Frame)
  /-- The session took a request. -/
  | adopted (client : Nat)
  /-- A request got its terminal answer. -/
  | answered (client : Nat) (answer : Answer)
deriving DecidableEq, Repr

/-- The answers of the socket to come. -/
structure Socket where
  /-- For every flush, what the writes of its loop return. -/
  writes : List (List Int) := []
  closedOrHasError : Bool := false
deriving DecidableEq, Repr

structure Session (hp : Hpack) where
  decoder : hp.Decoder
  encoder : hp.Encoder
  socket : Socket
  writeBuffer : Bytes
  readBuffer : Bytes
  streams : OrderedMap Nat Stream
  nextStreamId : Nat
  /-- The stream whose CONTINUATION frames are awaited, or zero. -/
  expectingContinuation : Nat
  pendingAttach : List Client
  prefaceSent : Bool
  settingsReceived : Bool
  goawayReceived : Bool
  encoderPoisoned : Bool
  delivering : Bool
  streamProgressed : Bool
  goawayLastStreamId : Nat
  fatalError : Option Error
  orphanHeaderBlock : Bytes
  remoteMaxFrameSize : Nat
  remoteMaxConcurrentStreams : Nat
  remoteInitialWindowSize : Nat
  pendingHpackEncCapacity : Option Nat
  connSendWindow : Int
  connUnackedBytes : Nat
  /-- History: nothing reads it. -/
  log : List Event

/-- `i32::try_from(value).expect("int cast")`. -/
def i32Cast (value : Int) : Option Int :=
  if -2 ^ 31 ≤ value ∧ value < 2 ^ 31 then some value else none

/-- `u32::saturating_add`. -/
def saturatingAdd (a b : Nat) : Nat := min (a + b) (2 ^ 32 - 1)

namespace Session

variable {hp : Hpack}

def create (hp : Hpack) (socket : Socket) : Session hp where
  decoder := hp.initial.1
  encoder := hp.initial.2
  socket := socket
  writeBuffer := []
  readBuffer := []
  streams := []
  nextStreamId := 1
  expectingContinuation := 0
  pendingAttach := []
  prefaceSent := false
  settingsReceived := false
  goawayReceived := false
  encoderPoisoned := false
  delivering := false
  streamProgressed := false
  goawayLastStreamId := 0
  fatalError := none
  orphanHeaderBlock := []
  remoteMaxFrameSize := DEFAULT_MAX_FRAME_SIZE
  remoteMaxConcurrentStreams := 100
  remoteInitialWindowSize := DEFAULT_WINDOW_SIZE
  pendingHpackEncCapacity := none
  connSendWindow := DEFAULT_WINDOW_SIZE
  connUnackedBytes := 0
  log := []

def hasHeadroom (s : Session hp) : Bool :=
  !s.goawayReceived && !s.encoderPoisoned && s.fatalError.isNone &&
    decide (s.streams.length < s.remoteMaxConcurrentStreams) &&
    decide (s.nextStreamId < MAX_STREAM_ID)

/-- Writes to the log. -/
def record (s : Session hp) (event : Event) : Session hp :=
  { s with log := s.log ++ [event] }

def fail (s : Session hp) (error : Error) : Session hp :=
  { s with fatalError := some error }

/-- A stream is written back behind its pointer. -/
def putStream (s : Session hp) (stream : Stream) : Session hp :=
  { s with streams := s.streams.put stream.id fun _ => stream }

def queue (s : Session hp) (bytes : Bytes) : Session hp :=
  { s with writeBuffer := s.writeBuffer ++ bytes }

def writeFrame (s : Session hp) (type : FrameType) (flags : UInt8) (streamId : Nat)
    (payload : Bytes) : Session hp :=
  let header : FrameHeader := ⟨payload.length, type.toByte, flags, streamId⟩
  ((s.queue header.encodeInto).queue payload).record
    (.queued ⟨type.toByte, flags, streamId, payload⟩)

def writeWindowUpdate (s : Session hp) (streamId increment : Nat) : Session hp :=
  s.writeFrame .windowUpdate 0 streamId (toBeBytes 4 increment)

/-- RST_STREAM, unless the stream is closed. -/
def rstStream (s : Session hp) (stream : Stream) (code : ErrorCode) : Session hp × Stream :=
  if stream.rstDone || stream.state == .Closed then (s, stream)
  else
    (s.writeFrame .rstStream 0 stream.id (toBeBytes 4 code.value),
      { stream with rstDone := true, state := .Closed })

/-- Forgets a stream; a header block that is not complete goes on as an orphan. -/
def removeStream (s : Session hp) (stream : Stream) : Session hp :=
  let s := if s.expectingContinuation = stream.id then
    { s with orphanHeaderBlock := stream.headerBlock } else s
  { s with streams := s.streams.swapRemove stream.id }

/-- The loop of `flush`: how many of `len` bytes the socket has taken, or `none` when a write
fails. The socket takes no more than it is given. -/
def flushLoop : List Int → Nat → Nat → Option Nat
  | [], _, total => some total
  | wrote :: writes, len, total =>
      if total < len then
        if wrote < 0 then none
        else if wrote = 0 then some total
        else flushLoop writes len (total + min wrote.toNat (len - total))
      else some total

/-- Hands `write_buffer` to the socket; whether that went well. -/
def flush (s : Session hp) : Session hp × Bool :=
  if s.writeBuffer.isEmpty then (s, true)
  else
    let t : Session hp := { s with socket := { s.socket with writes := s.socket.writes.tail } }
    match flushLoop (s.socket.writes.headD []) s.writeBuffer.length 0 with
    | none => (t, false)
    | some total =>
        ({ t with writeBuffer := s.writeBuffer.drop total }.record
          (.written (s.writeBuffer.take total)), true)

/-- The terminal answer to a request. -/
def answer (s : Session hp) (client : Client) (answer : Answer) : Session hp :=
  s.record (.answered client.asyncHttpId answer)

/-- The terminal answer to whoever waits for a stream. -/
def answer? (s : Session hp) (client : Option Client) (answer : Answer) : Session hp :=
  match client with
  | none => s
  | some client => s.answer client answer

end Session

end Bunx.Http2
