/-
Module: Bunx.Websocket.Client
Purpose: The state of a WebSocket client and everything it writes: messages, pongs, the close
  frame, and what the transport did not take (src/http_jsc/websocket_client.rs).
Trusted boundary: `World` stands for the socket, the proxy tunnel, the entropy and zlib. Reference
  counts, the poll reference and the TLS context are left out, allocations succeed, and the
  JavaScript handlers and the tunnel do not call back into the client during a call.
Main exports: World, scriptedWorld, ErrorCode, Event, ReceiveState, WebSocket, WebSocket.start, clearData, fail,
  terminate, enqueueEncodedBytes, sendData, sendBufferOut, sendPong, sendCloseWithBody,
  handleWritable, hasBackpressure, writeBinaryData, writeBlob, writeString
-/
import Bunx.Websocket.Frame

namespace Bunx.Websocket

open Lib

/-! ### What the client is connected to -/

inductive CloseKind where
  | normal
  | failure
deriving DecidableEq, Repr

/-- The errors of `PerMessageDeflate::decompress`. -/
inductive DecompressError where
  | inflateFailed
  | outOfMemory
  | tooLarge
deriving DecidableEq, Repr

/-- What lies outside of the client, in some state `W`. A write takes some first bytes of what it
is given, or fails. -/
structure World (W : Type) where
  tcpWrite : W → (bytes : Bytes) → Option (Fin (bytes.length + 1)) × W
  tcpIsClosed : W → Bool
  tcpIsShutdown : W → Bool
  tcpClose : CloseKind → W → W
  tcpShutdownRead : W → W
  tunnelWrite : W → (bytes : Bytes) → Option (Fin (bytes.length + 1)) × W
  tunnelHasBackpressure : W → Bool
  tunnelShutdown : W → W
  entropySlice : W → Mask × W
  /-- Nothing when zlib fails. -/
  compress : W → Bytes → Option Bytes × W
  decompress : W → Bytes → Except DecompressError Bytes × W
  /-- The const parameter of `WebSocket<SSL>`. -/
  ssl : Bool

/-- The transport takes as many bytes at each write as the list says, and all when it is used up;
the tunnel reports what waits in it as `blocked` says. Nothing is compressed. -/
def scriptedWorld (blocked : Bool) : World (List Nat) :=
  let write := fun (limits : List Nat) (bytes : Bytes) =>
    (some (⟨min (limits.headD bytes.length) bytes.length, by omega⟩ : Fin (bytes.length + 1)),
      limits.tail)
  { tcpWrite := write
    tcpIsClosed := fun _ => false
    tcpIsShutdown := fun _ => false
    tcpClose := fun _ limits => limits
    tcpShutdownRead := fun limits => limits
    tunnelWrite := write
    tunnelHasBackpressure := fun _ => blocked
    tunnelShutdown := fun limits => limits
    entropySlice := fun limits => (⟨1, 2, 3, 4⟩, limits)
    compress := fun limits _ => (none, limits)
    decompress := fun limits _ => (.error .inflateFailed, limits)
    ssl := false }

/-! ### The state -/

/-- The error codes the client fails with. -/
inductive ErrorCode where
  | failedToWrite
  | ended
  | failedToAllocateMemory
  | controlFrameIsFragmented
  | invalidControlFrame
  | compressionUnsupported
  | invalidCompressedData
  | unexpectedMaskFromServer
  | unsupportedControlFrame
  | unexpectedOpcode
  | invalidUtf8
  | messageTooBig
deriving DecidableEq, Repr

/-- What the C++ WebSocket is told. -/
inductive Event where
  /-- `did_receive_text` with an 8-bit string. -/
  | text (chars : Bytes)
  /-- `did_receive_text` with a 16-bit string. -/
  | text16 (chars : List Char)
  /-- `did_receive_bytes`. -/
  | bytes (data : Bytes) (kind : Opcode)
  | close (code : Nat) (reason : Bytes)
  | abruptClose (code : ErrorCode)
deriving DecidableEq, Repr

inductive ReceiveState where
  | needHeader
  | needMask
  | needBody
  | extendedPayloadLength16
  | extendedPayloadLength64
  | ping
  | pong
  | close
  | fail
deriving DecidableEq, Repr

/-- The client, but for the three fields that `handle_data_loop` works on copies of. -/
structure WebSocket (W : Type) where
  world : W
  /-- Is there still a C++ WebSocket to tell? -/
  outgoingWebsocket : Bool
  receivingIsFinal : Bool
  /-- `ping_frame_bytes`, from the payload on. -/
  pingFrameBytes : Mem
  pingLen : Nat
  pingReceived : Bool
  pongReceived : Bool
  closeReceived : Bool
  closeFrameBuffering : Bool
  receivePendingChunkLen : Nat
  receiveBuffer : Bytes
  sendBuffer : Bytes
  headerFragment : Option UInt8
  /-- The first `payload_length_frame_len` bytes of the array. -/
  payloadLengthFrameBytes : Bytes
  /-- Was compression negotiated? -/
  deflate : Bool
  receivingCompressed : Bool
  messageIsCompressed : Bool
  /-- Is the connection one through a proxy tunnel? -/
  proxyTunnel : Bool
  /-- What the C++ WebSocket was told so far. -/
  events : List Event
  /-- The frames that were to be sent so far. -/
  frames : List Bytes
  /-- The bytes the transport has taken so far. -/
  wire : Bytes

variable {W : Type}

/-- A client as `init` and `init_with_tunnel` set it up. -/
def WebSocket.start (world : W) (deflate proxyTunnel : Bool) : WebSocket W where
  world := world
  outgoingWebsocket := true
  receivingIsFinal := true
  pingFrameBytes := fun _ => 0
  pingLen := 0
  pingReceived := false
  pongReceived := false
  closeReceived := false
  closeFrameBuffering := false
  receivePendingChunkLen := 0
  receiveBuffer := []
  sendBuffer := []
  headerFragment := none
  payloadLengthFrameBytes := []
  deflate := deflate
  receivingCompressed := false
  messageIsCompressed := false
  proxyTunnel := proxyTunnel
  events := []
  frames := []
  wire := []

/-! ### Closing -/

section Closing

variable (env : World W)

/-- `clear_receive_buffers`. -/
def clearReceiveBuffers (ws : WebSocket W) : WebSocket W :=
  { ws with receiveBuffer := [], receivePendingChunkLen := 0 }

def clearData (ws : WebSocket W) : WebSocket W :=
  { ws with
    receiveBuffer := []
    sendBuffer := []
    pingReceived := false
    pongReceived := false
    pingLen := 0
    closeFrameBuffering := false
    receivePendingChunkLen := 0
    receivingCompressed := false
    messageIsCompressed := false
    deflate := false
    proxyTunnel := false
    world := if ws.proxyTunnel then env.tunnelShutdown ws.world else ws.world }

/-- Tell the C++ WebSocket for the last time. -/
def dispatchLast (event : Event) (ws : WebSocket W) : WebSocket W :=
  if ws.outgoingWebsocket then
    { ws with outgoingWebsocket := false, events := ws.events ++ [event] }
  else ws

def dispatchAbruptClose (code : ErrorCode) (ws : WebSocket W) : WebSocket W :=
  dispatchLast (.abruptClose code) ws

def dispatchClose (code : Nat) (reason : Bytes) (ws : WebSocket W) : WebSocket W :=
  dispatchLast (.close code reason) ws

def cancel (ws : WebSocket W) : WebSocket W :=
  let cleared := clearData env ws
  let kind := if env.ssl then CloseKind.normal else .failure
  let closed := { cleared with world := env.tcpClose kind cleared.world }
  if ws.proxyTunnel then dispatchAbruptClose .ended closed else closed

def fail (code : ErrorCode) (ws : WebSocket W) : WebSocket W :=
  cancel env (dispatchLast (.abruptClose code) ws)

def terminate (code : ErrorCode) (ws : WebSocket W) : WebSocket W :=
  fail env code ws

end Closing

/-! ### Writing -/

section Writing

variable (env : World W)

/-- A write to the transport, with the bytes it took recorded. -/
def writeTo (write : W → (bytes : Bytes) → Option (Fin (bytes.length + 1)) × W)
    (ws : WebSocket W) (bytes : Bytes) : Option Nat × WebSocket W :=
  match write ws.world bytes with
  | (none, world) => (none, { ws with world := world })
  | (some wrote, world) =>
      (some wrote, { ws with world := world, wire := ws.wire ++ bytes.take wrote })

def hasTcp (ws : WebSocket W) : Bool :=
  ws.proxyTunnel || (!env.tcpIsClosed ws.world && !env.tcpIsShutdown ws.world)

def hasBackpressure (ws : WebSocket W) : Bool :=
  0 < ws.sendBuffer.length || (ws.proxyTunnel && env.tunnelHasBackpressure ws.world)

/-- Write what the send buffer holds; the client keeps what was not taken. -/
def sendBufferOut (ws : WebSocket W) : WebSocket W × Bool :=
  let buf := ws.sendBuffer
  let taken := { ws with sendBuffer := [] }
  if ws.proxyTunnel then
    match writeTo env.tunnelWrite taken buf with
    | (some wrote, written) => ({ written with sendBuffer := buf.drop wrote }, true)
    | (none, failed) => (terminate env .failedToWrite failed, false)
  else if env.tcpIsClosed ws.world then (ws, false)
  else
    match writeTo env.tcpWrite taken buf with
    | (some wrote, written) => ({ written with sendBuffer := buf.drop wrote }, true)
    | (none, failed) => (terminate env .failedToWrite failed, false)

/-- Compression is for text and binary messages that are not small. -/
def shouldCompress (ws : WebSocket W) (dataLen : Nat) (opcode : Opcode) : Bool :=
  ws.deflate && (opcode = .text || opcode = .binary) && 860 ≤ dataLen

/-- The frame that `Copy::copy` lays out: raw bytes need no key. -/
def copyFrame (ws : WebSocket W) (bytes : Copy) (contentByteLen : Nat) (opcode : Opcode) :
    Bytes × WebSocket W :=
  if bytes.isRaw then (bytes.copy .zero contentByteLen opcode, ws)
  else
    let (mask, world) := env.entropySlice ws.world
    (bytes.copy mask contentByteLen opcode, { ws with world := world })

/-- Queue bytes; those of a new frame are recorded as one. -/
def queue (ws : WebSocket W) (bytes : Bytes) (newFrame : Bool) : WebSocket W :=
  { ws with
    sendBuffer := ws.sendBuffer ++ bytes
    frames := if newFrame then ws.frames ++ [bytes] else ws.frames }

def sendDataUncompressed (ws : WebSocket W) (bytes : Copy) (doWrite : Bool) (opcode : Opcode) :
    WebSocket W × Bool :=
  let (frame, copied) := copyFrame env ws bytes bytes.len.2 opcode
  let queued := queue copied frame !bytes.isRaw
  if doWrite then sendBufferOut env queued else (queued, true)

def sendData (ws : WebSocket W) (bytes : Copy) (doWrite : Bool) (opcode : Opcode) :
    WebSocket W × Bool :=
  if ws.deflate && (opcode = .text || opcode = .binary) && !bytes.isRaw then
    if !shouldCompress ws bytes.content.length opcode then
      sendDataUncompressed env ws bytes doWrite opcode
    else
      match env.compress ws.world bytes.content with
      | (none, world) =>
          sendDataUncompressed env { ws with world := world } bytes doWrite opcode
      | (some compressed, world) =>
          let (mask, world) := env.entropySlice world
          let queued := queue { ws with world := world }
            (copyCompressed mask compressed opcode true) true
          if doWrite then sendBufferOut env queued else (queued, true)
  else sendDataUncompressed env ws bytes doWrite opcode

def copyToSendBuffer (ws : WebSocket W) (bytes : Bytes) (doWrite : Bool) : WebSocket W × Bool :=
  sendData env ws (.raw bytes) doWrite .binary

/-- Send a frame that is laid out. -/
def enqueueEncodedBytes (ws : WebSocket W) (bytes : Bytes) : WebSocket W × Bool :=
  let ws := { ws with frames := ws.frames ++ [bytes] }
  -- Through the tunnel the frame is written at once, whatever is queued.
  if ws.proxyTunnel then
    match writeTo env.tunnelWrite ws bytes with
    | (none, failed) => (terminate env .failedToWrite failed, false)
    | (some wrote, written) =>
        if wrote < bytes.length then
          ((copyToSendBuffer env written (bytes.drop wrote) false).1, true)
        else (written, true)
  else if !hasBackpressure env ws then
    match writeTo env.tcpWrite ws bytes with
    | (none, failed) => (terminate env .failedToWrite failed, false)
    | (some wrote, written) =>
        if wrote = bytes.length then (written, true)
        else ((copyToSendBuffer env written (bytes.drop wrote) false).1, true)
  else copyToSendBuffer env ws bytes true

/-! ### Control frames -/

/-- The pong for the ping payload that is held. The payload is masked where it is. -/
def sendPong (ws : WebSocket W) : WebSocket W × Bool :=
  if !hasTcp env ws then (dispatchAbruptClose .ended ws, false)
  else
    let header := sentHeader ⟨ws.pingLen % 128, Nat.mod_lt _ (by decide)⟩ .pong false
    if 0 < ws.pingLen then
      let (mask, world) := env.entropySlice ws.world
      let masked := mask.fill (ws.pingFrameBytes.slice ws.pingLen)
      enqueueEncodedBytes env
        { ws with world := world, pingFrameBytes := ws.pingFrameBytes.write 0 masked }
        (header.slice ++ mask.bytes ++ masked)
    else enqueueEncodedBytes env ws (header.slice ++ Mask.zero.bytes)

/-- `strings::is_valid_utf8`. -/
def isValidUtf8 (bytes : Bytes) : Bool := (String.fromUTF8? ⟨bytes.toArray⟩).isSome

/-- A direct connection without TLS does not read on when it closes. -/
def shutdownRead (ws : WebSocket W) : WebSocket W :=
  if !env.ssl && !ws.proxyTunnel then { ws with world := env.tcpShutdownRead ws.world } else ws

/-- The close frame; the C++ WebSocket is told `dispatchCode` when there is one. -/
def sendCloseWithBody (ws : WebSocket W) (code : Nat) (dispatchCode : Option Nat)
    (body : Bytes) : WebSocket W :=
  let bodySlice := body.take 123
  if !hasTcp env ws then clearData env (dispatchAbruptClose .ended ws)
  else
    let ws := shutdownRead env ws
    let header := sentHeader ⟨(bodySlice.length + 2) % 128, Nat.mod_lt _ (by decide)⟩ .close false
    if 0 < bodySlice.length && !isValidUtf8 bodySlice then terminate env .invalidUtf8 ws
    else
      let (mask, world) := env.entropySlice ws.world
      let frame := header.slice ++ mask.bytes ++ mask.fill (toBeBytes 2 code ++ bodySlice)
      let (sent, ok) := enqueueEncodedBytes env { ws with world := world } frame
      if ok then dispatchClose (dispatchCode.getD code) bodySlice (clearData env sent) else sent

/-- The answer to a close frame without a body. -/
def sendClose (ws : WebSocket W) : WebSocket W :=
  sendCloseWithBody env ws 1000 (some 1005) []

/-! ### Messages -/

/-- `handle_writable` and `handle_tunnel_writable`. -/
def handleWritable (ws : WebSocket W) : WebSocket W :=
  if ws.closeReceived then ws
  else if ws.sendBuffer.length = 0 then ws
  else (sendBufferOut env ws).1

/-- The size from which on a frame is not laid out on the stack. -/
def stackFrameSize : Nat := 1024

/-- A message of bytes: a small frame is sent without the buffer when nothing is waiting. -/
def writeBytes (ws : WebSocket W) (slice : Bytes) (opcode : Opcode) : WebSocket W :=
  if !hasBackpressure env ws && frameSizeIncludingMask slice.length < stackFrameSize then
    let (frame, copied) := copyFrame env ws (.bytes slice) slice.length opcode
    (enqueueEncodedBytes env copied frame).1
  else (sendData env ws (.bytes slice) (!hasBackpressure env ws) opcode).1

def writeBinaryData (ws : WebSocket W) (slice : Bytes) (op : Nat) : WebSocket W :=
  if !hasTcp env ws || 0xF < op then dispatchAbruptClose .ended ws
  else writeBytes env ws slice (.fromRaw op)

/-- The data of the blob, or nothing when the value is not one. -/
def writeBlob (ws : WebSocket W) (blobValue : Option Bytes) (op : Nat) : WebSocket W :=
  if !hasTcp env ws || 0xF < op then dispatchAbruptClose .ended ws
  else
    match blobValue with
    | none => dispatchAbruptClose .ended ws
    | some [] => (sendData env ws (.bytes []) (!hasBackpressure env ws) (.fromRaw op)).1
    | some data => writeBytes env ws data (.fromRaw op)

def writeString (ws : WebSocket W) (str : ZigString) (op : Nat) : WebSocket W :=
  if !hasTcp env ws then dispatchAbruptClose .ended ws
  else
    let opcode := Opcode.fromRaw (op % 16)
    match str with
    | .latin1 chars =>
        let bytes := Copy.latin1 chars
        if chars.length < stackFrameSize && !hasBackpressure env ws &&
            bytes.len.1 < stackFrameSize then
          let (frame, copied) := copyFrame env ws bytes bytes.len.2 opcode
          (enqueueEncodedBytes env copied frame).1
        else (sendData env ws bytes (!hasBackpressure env ws) opcode).1
    | .utf16 text =>
        let bytes := Copy.utf16 text
        if str.len * 4 < stackFrameSize && !hasBackpressure env ws then
          let (frame, copied) := copyFrame env ws bytes bytes.len.2 opcode
          (enqueueEncodedBytes env copied frame).1
        else (sendData env ws bytes (!hasBackpressure env ws) opcode).1

end Writing

end Bunx.Websocket
