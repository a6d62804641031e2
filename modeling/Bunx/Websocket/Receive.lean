/-
Module: Bunx.Websocket.Receive
Purpose: How a client reads frames: the header, the turns of `handle_data_loop` in each of its
  states, and what is kept between two chunks (src/http_jsc/websocket_client.rs).
Trusted boundary: the fields `receive_state`, `receiving_type` and `receive_body_remain` are the
  record `Progress`: a call works on copies and stores them at its end, so what the other
  functions write to the fields meanwhile is overwritten or never read again.
Main exports: toUtf16Alloc, dispatchData, dispatchCompressedData, consume, FrameStart,
  parseWebsocketHeader, receivedCloseCodes, Progress, Locals, needHeader, extendedPayloadLength,
  receivePing, receivePong, needBody, receiveClose, turn, dataLoop, Receiver, handleData
-/
import Bunx.Websocket.Client
import Bunx.Lib.ChunkLoop

namespace Bunx.Websocket

open Lib ChunkLoop

variable {W : Type}

/-! ### Messages -/

/-- `strings::to_utf16_alloc`, failing on invalid UTF-8: nothing when all bytes are ASCII. -/
def toUtf16Alloc (bytes : Bytes) : Except Unit (Option (List Char)) :=
  if bytes.all (· < 0x80) then .ok none
  else
    match String.fromUTF8? ⟨bytes.toArray⟩ with
    | some text => .ok (some text.toList)
    | none => .error ()

section Dispatch

variable (env : World W)

/-- Tell the C++ WebSocket. -/
def tell (ws : WebSocket W) (event : Event) : WebSocket W :=
  { ws with events := ws.events ++ [event] }

def dispatchData (ws : WebSocket W) (data : Bytes) (kind : Opcode) : WebSocket W :=
  if !ws.outgoingWebsocket then clearData env ws
  else
    match kind with
    | .text =>
        match toUtf16Alloc data with
        | .error _ => terminate env .invalidUtf8 ws
        | .ok (some utf16) => tell ws (.text16 utf16)
        | .ok none => tell ws (.text data)
    | .binary | .ping | .pong => tell ws (.bytes data kind)
    | _ => terminate env .unexpectedOpcode ws

def dispatchCompressedData (ws : WebSocket W) (data : Bytes) (kind : Opcode) : WebSocket W :=
  if !ws.deflate then terminate env .compressionUnsupported ws
  else
    match env.decompress ws.world data with
    | (.error .inflateFailed, world) =>
        terminate env .invalidCompressedData { ws with world := world }
    | (.error .tooLarge, world) => terminate env .messageTooBig { ws with world := world }
    | (.error .outOfMemory, world) =>
        terminate env .failedToAllocateMemory { ws with world := world }
    | (.ok decompressed, world) => dispatchData env { ws with world := world } decompressed kind

/-- Hand over a compressed message that is complete in the buffer. -/
def finishCompressed (ws : WebSocket W) (kind : Opcode) : WebSocket W :=
  let dispatched := dispatchCompressedData env { ws with receiveBuffer := [] } ws.receiveBuffer kind
  { clearReceiveBuffers dispatched with
    receivingCompressed := false, messageIsCompressed := false }

/-- Hand over a message that is complete in the buffer. -/
def finishBuffered (ws : WebSocket W) (kind : Opcode) : WebSocket W :=
  let dispatched := dispatchData env { ws with receiveBuffer := [] } ws.receiveBuffer kind
  { clearReceiveBuffers dispatched with messageIsCompressed := false }

/-- Take payload bytes of a data frame, of which `leftInFragment` are still to come with them;
the number of bytes taken is returned. -/
def consume (ws : WebSocket W) (data : Bytes) (leftInFragment : Nat) (kind : Opcode)
    (isFinal : Bool) : WebSocket W × Nat :=
  let buffered := { ws with receiveBuffer := ws.receiveBuffer ++ data }
  let complete := data.length ≤ leftInFragment &&
    leftInFragment - data.length - ws.receivePendingChunkLen = 0
  let waiting :=
    { buffered with receivePendingChunkLen := ws.receivePendingChunkLen - leftInFragment }
  let taken := { buffered with receivePendingChunkLen := 0 }
  if ws.receivingCompressed then
    if complete then
      (if isFinal then finishCompressed env taken kind else taken, data.length)
    else (waiting, data.length)
  else if isFinal && data.length = leftInFragment && ws.receivePendingChunkLen = 0 &&
      ws.receiveBuffer.length = 0 then
    ({ dispatchData env ws data kind with messageIsCompressed := false }, data.length)
  else if isFinal && data.length = leftInFragment && ws.receivePendingChunkLen = 0 &&
      data.length = 0 then
    (finishBuffered env ws kind, 0)
  else if data.length = 0 then (ws, 0)
  else if complete then
    (if isFinal then finishBuffered env taken kind else taken, data.length)
  else (waiting, data.length)

end Dispatch

/-! ### Headers -/

/-- What `parse_websocket_header` says of a header. -/
structure FrameStart where
  receiveState : ReceiveState
  receivingType : Opcode
  payloadLength : Nat
  isFragmented : Bool
  isFinal : Bool
  needCompression : Bool
deriving DecidableEq, Repr

def parseWebsocketHeader (b0 b1 : UInt8) : FrameStart :=
  let header := WebsocketHeader.fromSlice b0 b1
  let payload := header.len.val
  let isMessage := header.opcode = .text || header.opcode = .binary
  { receivingType := header.opcode
    payloadLength := payload
    isFragmented := header.opcode = .continued || !header.isFinal
    isFinal := header.isFinal
    needCompression := isMessage && header.compressed
    receiveState :=
      if !isMessage && header.opcode ≠ .continued && header.compressed then .fail
      else if header.mask && isMessage then .needMask
      else if header.rsv ≠ 0 then .fail
      else
        match header.opcode with
        | .text | .continued | .binary =>
            if payload ≤ 125 then .needBody
            else if payload = 126 then .extendedPayloadLength16
            else if payload = 127 then .extendedPayloadLength64
            else .fail
        | .close => .close
        | .ping => .ping
        | .pong => .pong
        | _ => .fail }

/-- The code to echo and the code to report for the code in a close frame. -/
def receivedCloseCodes (received : Nat) : Nat × Nat :=
  let isInvalid := received < 1000 || (1004 ≤ received && received < 1007) ||
    (1016 ≤ received && received ≤ 2999)
  let dispatch := if isInvalid then 1002 else received
  (if dispatch = 1001 then 1000 else dispatch, dispatch)

/-! ### The loop over a chunk -/

/-- The fields that a call starts from and stores at its end. -/
structure Progress where
  receiveState : ReceiveState
  receivingType : Opcode
  receiveBodyRemain : Nat
deriving DecidableEq, Repr

/-- The variables of a call. -/
structure Locals where
  receiveState : ReceiveState
  receivingType : Opcode
  receiveBodyRemain : Nat
  isFinal : Bool
  isFragmented : Bool
  lastReceiveDataType : Opcode
deriving DecidableEq, Repr

/-- The client and the variables of the call. -/
abbrev Working (W : Type) := WebSocket W × Locals

section Loop

variable (env : World W)

/-- `MAX_RECEIVE_MESSAGE_LENGTH`. -/
def maxReceiveMessageLength : Nat := 128 * 1024 * 1024

/-- End the call and the connection. -/
def terminated (ws : WebSocket W) (code : ErrorCode) : Turn (Working W) (WebSocket W) UInt8 :=
  .stop (terminate env code ws)

/-- `receiving_compressed` and `message_is_compressed` at the header of a frame. -/
def trackCompression (ws : WebSocket W) (frame : FrameStart) : WebSocket W :=
  if frame.receivingType = .text || frame.receivingType = .binary then
    { ws with
      messageIsCompressed := frame.needCompression
      receivingCompressed := frame.needCompression }
  else if frame.receivingType = .continued then
    { ws with receivingCompressed := ws.messageIsCompressed }
  else ws

/-- The opcodes a frame may have. -/
def isSupported : Opcode → Bool
  | .continued | .text | .binary | .ping | .pong | .close => true
  | _ => false

/-- A header behind the checks of its opcode; `lastReceiveDataType` is the type of the message
the frame belongs to. A final frame without payload completes its message at once, and the loop
goes on when there is more to read. -/
def beginFrame (ws : WebSocket W) (frame : FrameStart) (lastReceiveDataType : Opcode) :
    Finish (Working W) (WebSocket W) :=
  if !isSupported frame.receivingType then .stop (terminate env .unsupportedControlFrame ws)
  else if frame.needCompression && !ws.deflate then
    .stop (terminate env .compressionUnsupported ws)
  else if frame.needCompression && frame.receivingType.isControl then
    .stop (terminate env .invalidControlFrame ws)
  else
    let tracked := trackCompression ws frame
    let l : Locals :=
      { receiveState := frame.receiveState
        receivingType := frame.receivingType
        receiveBodyRemain := frame.payloadLength
        isFinal := frame.isFinal
        isFragmented := frame.isFragmented
        lastReceiveDataType := lastReceiveDataType }
    if frame.payloadLength = 0 && frame.receiveState = .needBody && frame.isFinal then
      let (consumed, _) := consume env tracked [] 0 lastReceiveDataType frame.isFinal
      .wait ({ consumed with receivingCompressed := false, messageIsCompressed := false },
        { l with receiveState := .needHeader, isFragmented := false })
    else .pass (tracked, l)

/-- The checks of the opcode of a header. -/
def readHeader (ws : WebSocket W) (l : Locals) (b0 b1 : UInt8) :
    Finish (Working W) (WebSocket W) :=
  let frame := parseWebsocketHeader b0 b1
  if frame.receivingType = .continued then
    if ws.receivingIsFinal then .stop (terminate env .unexpectedOpcode ws)
    else
      beginFrame env { ws with receivingIsFinal := frame.isFinal } frame l.lastReceiveDataType
  else if frame.receivingType = .text || frame.receivingType = .binary then
    if !ws.receivingIsFinal then .stop (terminate env .unexpectedOpcode ws)
    else beginFrame env { ws with receivingIsFinal := frame.isFinal } frame frame.receivingType
  else if frame.receivingType.isControl && frame.isFragmented then
    .stop (terminate env .controlFrameIsFragmented ws)
  else beginFrame env ws frame l.lastReceiveDataType

/-- The header, of which the first byte may have come with an earlier chunk. -/
def needHeader (ws : WebSocket W) (l : Locals) (data : Bytes) :
    Turn (Working W) (WebSocket W) UInt8 :=
  match ws.headerFragment, data with
  | _, [] => .panic
  | none, [b0] => .leave ({ ws with headerFragment := some b0 }, l)
  | none, b0 :: b1 :: rest =>
      (readHeader env { ws with headerFragment := none } l b0 b1).turn rest
  | some b0, b1 :: rest =>
      (readHeader env { ws with headerFragment := none } l b0 b1).turn rest

/-- An extended length of two or eight bytes. -/
def extendedPayloadLength (byteSize : Nat) (ws : WebSocket W) (l : Locals) (data : Bytes) :
    Turn (Working W) (WebSocket W) UInt8 :=
  if data.isEmpty then .leave (ws, l)
  else
    let totalReceived := min (byteSize - ws.payloadLengthFrameBytes.length) data.length
    let received := ws.payloadLengthFrameBytes ++ data.take totalReceived
    let rest := data.drop totalReceived
    if received.length < byteSize then
      .leave ({ ws with payloadLengthFrameBytes := received }, l)
    else
      let ws := { ws with payloadLengthFrameBytes := [] }
      let remain := fromBeBytes (received.take byteSize)
      if remain = 0 then terminated env ws .invalidControlFrame
      else .goOn (ws, { l with receiveState := .needBody, receiveBodyRemain := remain }) rest

/-- Collect the payload of a ping or a pong in `ping_frame_bytes`: the client, how much is there,
and the rest of the chunk. -/
def collect (ws : WebSocket W) (receiveBodyRemain : Nat) (data : Bytes) :
    WebSocket W × Nat × Bytes :=
  if data.isEmpty then (ws, receiveBodyRemain, data)
  else
    let totalReceived := min ws.pingLen (receiveBodyRemain + data.length)
    let slice := data.take (totalReceived - receiveBodyRemain)
    ({ ws with pingFrameBytes := ws.pingFrameBytes.write receiveBodyRemain slice },
      totalReceived, data.drop slice.length)

/-- A ping or a pong: until its length is noted, `receive_body_remain` is that length, and from
then on how much of the payload is there. `finish` deals with the complete payload. -/
def receiveControl (received : Bool) (noted : WebSocket W)
    (finish : WebSocket W → WebSocket W) (ws : WebSocket W) (l : Locals) (data : Bytes) :
    Turn (Working W) (WebSocket W) UInt8 :=
  if !received && 125 < l.receiveBodyRemain then terminated env ws .invalidControlFrame
  else
    let (ws, remain) := if received then (ws, l.receiveBodyRemain) else (noted, 0)
    let (collected, remain, rest) := collect ws remain data
    if 0 < ws.pingLen - remain then
      .leave (collected, { l with receiveBodyRemain := remain })
    else
      let next : Working W :=
        (finish collected, { l with
          receiveState := .needHeader, receiveBodyRemain := 0,
          receivingType := l.lastReceiveDataType })
      if rest.isEmpty then .leave next else .goOn next rest

/-- A complete ping is answered with a pong. -/
def finishPing (ws : WebSocket W) : WebSocket W :=
  let dispatched := dispatchData env ws (ws.pingFrameBytes.slice ws.pingLen) .ping
  (sendPong env { dispatched with pingReceived := false }).1

def finishPong (ws : WebSocket W) : WebSocket W :=
  let dispatched := dispatchData env ws (ws.pingFrameBytes.slice ws.pingLen) .pong
  { dispatched with pongReceived := false }

def receivePing (ws : WebSocket W) (l : Locals) (data : Bytes) :
    Turn (Working W) (WebSocket W) UInt8 :=
  receiveControl env ws.pingReceived
    { ws with pingLen := l.receiveBodyRemain, pingReceived := true } (finishPing env) ws l data

def receivePong (ws : WebSocket W) (l : Locals) (data : Bytes) :
    Turn (Working W) (WebSocket W) UInt8 :=
  receiveControl env ws.pongReceived
    { ws with pingLen := l.receiveBodyRemain, pongReceived := true } (finishPong env) ws l data

/-- The payload of a data frame. -/
def needBody (ws : WebSocket W) (l : Locals) (data : Bytes) :
    Turn (Working W) (WebSocket W) UInt8 :=
  if maxReceiveMessageLength < ws.receiveBuffer.length + l.receiveBodyRemain then
    terminated env ws .messageTooBig
  else
    let toConsume := min l.receiveBodyRemain data.length
    let (ws, consumed) :=
      consume env ws (data.take toConsume) l.receiveBodyRemain l.lastReceiveDataType l.isFinal
    let remain := l.receiveBodyRemain - consumed
    let rest := data.drop toConsume
    let l :=
      if remain = 0 then
        { l with receiveBodyRemain := remain, receiveState := .needHeader, isFragmented := false }
      else { l with receiveBodyRemain := remain }
    if rest.isEmpty then .leave (ws, l) else .goOn (ws, l) rest

/-- The close frame that is complete: its code and its reason. -/
def finishClose (ws : WebSocket W) : WebSocket W :=
  let ws := { ws with closeReceived := true }
  let closeData := ws.pingFrameBytes.slice ws.pingLen
  let closed :=
    if 2 ≤ ws.pingLen then
      let (echoCode, dispatchCode) := receivedCloseCodes (fromBeBytes (closeData.take 2))
      sendCloseWithBody env ws echoCode (some dispatchCode) (closeData.drop 2)
    else sendClose env ws
  { closed with closeFrameBuffering := false }

/-- A close frame. At first `receive_body_remain` is the length of its payload, and when that has
begun to come, how much of it is there. -/
def receiveClose (ws : WebSocket W) (l : Locals) (data : Bytes) :
    Turn (Working W) (WebSocket W) UInt8 :=
  if l.receiveBodyRemain = 1 || 125 < l.receiveBodyRemain then
    terminated env ws .invalidControlFrame
  else if 0 < l.receiveBodyRemain then
    let (ws, remain) :=
      if ws.closeFrameBuffering then (ws, l.receiveBodyRemain)
      else ({ ws with pingLen := l.receiveBodyRemain, closeFrameBuffering := true }, 0)
    let toCopy := min data.length (ws.pingLen - remain)
    let ws := { ws with pingFrameBytes := ws.pingFrameBytes.write remain (data.take toCopy) }
    let remain := remain + toCopy
    if remain < ws.pingLen then .leave (ws, { l with receiveBodyRemain := remain })
    else .stop (finishClose env ws)
  else .stop (sendClose env { ws with closeReceived := true })

/-- One turn of the loop. -/
def turn (s : Working W) (data : Bytes) : Turn (Working W) (WebSocket W) UInt8 :=
  match s.2.receiveState with
  | .needHeader => needHeader env s.1 s.2 data
  | .needMask => terminated env s.1 .unexpectedMaskFromServer
  | .extendedPayloadLength64 => extendedPayloadLength env 8 s.1 s.2 data
  | .extendedPayloadLength16 => extendedPayloadLength env 2 s.1 s.2 data
  | .ping => receivePing env s.1 s.2 data
  | .pong => receivePong env s.1 s.2 data
  | .needBody => needBody env s.1 s.2 data
  | .close => receiveClose env s.1 s.2 data
  | .fail => terminated env s.1 .unsupportedControlFrame

end Loop

/-! ### Calls -/

/-- The client with its three fields, between two calls. -/
structure Receiver (W : Type) where
  ws : WebSocket W
  progress : Progress

/-- A new client. -/
def Receiver.start (world : W) (deflate proxyTunnel : Bool) : Receiver W where
  ws := .start world deflate proxyTunnel
  progress := { receiveState := .needHeader, receivingType := .resB, receiveBodyRemain := 0 }

/-- The variables at the start of a call. -/
def Receiver.load (r : Receiver W) : Working W :=
  (r.ws,
    { receiveState := r.progress.receiveState
      receivingType := r.progress.receivingType
      receiveBodyRemain := r.progress.receiveBodyRemain
      isFinal := r.ws.receivingIsFinal
      isFragmented := false
      lastReceiveDataType := r.progress.receivingType })

/-- What the end of a call stores. -/
def Receiver.save (s : Working W) : Receiver W where
  ws := s.1
  progress :=
    { receiveState := s.2.receiveState
      receivingType := s.2.lastReceiveDataType
      receiveBodyRemain := s.2.receiveBodyRemain }

/-- The loop of `handle_data_loop`. A byte is followed by three turns at most. -/
def dataLoop (env : World W) : ChunkLoop (Receiver W) (Working W) (WebSocket W) UInt8 where
  load := Receiver.load
  save := Receiver.save
  turn := turn env
  turns := fun chunk => 3 * chunk.length + 3

/-- A chunk: nothing is returned when the program panics. Behind a close nothing is read. -/
def handleData (env : World W) (r : Receiver W) (data : Bytes) : Option (Receiver W) :=
  if r.ws.closeReceived then some r
  else
    match (dataLoop env).handle r data with
    | none => none
    | some (.left kept) => some kept
    | some (.stopped ws) =>
        some { ws := { ws with closeReceived := true }, progress := r.progress }

/-- Chunks one after the other. -/
def handleChunks (env : World W) (r : Receiver W) (chunks : List Bytes) : Option (Receiver W) :=
  chunks.foldlM (handleData env) r

end Bunx.Websocket
