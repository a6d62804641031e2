/-
Module: Bunx.Http2.Dispatch
Purpose: What the HTTP/2 client does with the frames it receives
  (src/http/h2_client/dispatch.rs).
Trusted boundary: `none` is a panic or a loop that does not end; positions in the decoded header
  list are below its cap, so the conversions to `u32` do not show.
Main exports: stripPadding, headerFragment, isMalformedResponseField, isMalformedResponseValue,
  HeaderScan, decodeHeaderBlock, decodeDiscardOrphan, applySettings, dispatchFrame, parseFrames
-/
import Bunx.Http2.Encode

namespace Bunx.Http2

open Lib
open Websocket (toBeBytes fromBeBytes)

/-! ### Payloads -/

def stripPadding (payload : Bytes) : Option Bytes :=
  match payload with
  | [] => none
  | pad :: rest =>
      if payload.length ≤ pad.toNat then none else some (rest.take (payload.length - pad.toNat - 1))

/-- The part of a header block that a HEADERS frame carries. -/
def headerFragment (frame : Frame) : Except Error Bytes :=
  match if hasFlag frame.flags PADDED then stripPadding frame.payload else some frame.payload with
  | none => .error .HTTP2ProtocolError
  | some fragment =>
      let isPriority := hasFlag frame.flags PRIORITY
      if isPriority && decide (fragment.length < STREAM_PRIORITY_BYTE_SIZE) then
        .error .HTTP2ProtocolError
      else
        let fragment := if isPriority then fragment.drop STREAM_PRIORITY_BYTE_SIZE else fragment
        if LOCAL_MAX_HEADER_LIST_SIZE < fragment.length then .error .HTTP2HeaderListTooLarge
        else .ok fragment

def isFieldNameByte (c : UInt8) : Bool :=
  (0x61 ≤ c && c ≤ 0x7A) || (0x30 ≤ c && c ≤ 0x39) || (ascii "!#$%&*+-.^_").contains c ||
    c == 0x27 || c == 0x60 || c == 0x7C || c == 0x7E

def isMalformedResponseField (name : Bytes) : Bool :=
  if name.isEmpty then true
  else if name.any (fun c => !isFieldNameByte c) then true
  else
    [ascii "connection", ascii "keep-alive", ascii "proxy-connection", ascii "te",
      ascii "transfer-encoding", ascii "upgrade"].contains name

def isMalformedResponseValue (value : Bytes) : Bool :=
  value.any fun c => c == 0 || c == 0x0D || c == 0x0A

/-- The loop of `parse_unsigned` with radix ten. -/
def parseUnsignedLoop : Bytes → Nat → Option Nat
  | [], acc => some acc
  | c :: digits, acc =>
      if c == 0x5F then parseUnsignedLoop digits acc
      else if 0x30 ≤ c && c ≤ 0x39 then parseUnsignedLoop digits (acc * 10 + (c.toNat - 0x30))
      else none

/-- `parse_unsigned::<u32>` with radix ten, of few digits. -/
def parseUnsigned (digits : Bytes) : Option Nat :=
  if digits.isEmpty || digits.head? == some 0x5F || digits.getLast? == some 0x5F then none
  else parseUnsignedLoop digits 0

/-! ### Header blocks -/

/-- What the decoding of a response header block has found so far. -/
structure HeaderScan where
  status : Nat := 0
  /-- Where the names and values of the fields are in `decodedBytes`. -/
  bounds : List (Nat × Nat × Nat) := []
  decodedBytes : Bytes
  seenRegular : Bool := false
  seenStatus : Bool := false
  malformed : Bool := false

namespace HeaderScan

/-- One field of the block, of a stream with the given status code. -/
def field (statusCode : Nat) (scan : HeaderScan) (header : RawHeader) :
    Except Error HeaderScan :=
  if header.name.head? == some 0x3A then
    if statusCode != 0 || scan.seenRegular || scan.seenStatus || header.name != ascii ":status" then
      .ok { scan with malformed := true }
    else
      let status :=
        if header.value.length = 3 then (parseUnsigned header.value).getD 0 else 0
      .ok
        { scan with
          seenStatus := true
          status := status
          malformed := scan.malformed || decide (status < 100) || decide (999 < status) }
  else
    let scan := { scan with seenRegular := true }
    if statusCode != 0 || scan.malformed then .ok scan
    else if isMalformedResponseField header.name || isMalformedResponseValue header.value then
      .ok { scan with malformed := true }
    else if LOCAL_MAX_HEADER_LIST_SIZE <
        scan.decodedBytes.length + header.name.length + header.value.length then
      .error .HTTP2HeaderListTooLarge
    else
      let nameStart := scan.decodedBytes.length
      let valueStart := nameStart + header.name.length
      .ok
        { scan with
          decodedBytes := scan.decodedBytes ++ header.name ++ header.value
          bounds := scan.bounds ++ [(nameStart, valueStart, valueStart + header.value.length)] }

/-- The fields that were found. -/
def headers (scan : HeaderScan) : List (Bytes × Bytes) :=
  scan.bounds.map fun (nameStart, valueStart, stop) =>
    ((scan.decodedBytes.take valueStart).drop nameStart,
      (scan.decodedBytes.take stop).drop valueStart)

/-- The loop over the block; the tables change also where the block is rejected. -/
def run (hp : Hpack) (statusCode : Nat) :
    Nat → Bytes → hp.Decoder → HeaderScan → Except Error HeaderScan × hp.Decoder
  | 0, _, decoder, scan => (.ok scan, decoder)
  | fuel + 1, rest, decoder, scan =>
      if rest.isEmpty then (.ok scan, decoder)
      else
        match hp.decode decoder rest with
        | (none, decoder) => (.error .HTTP2CompressionError, decoder)
        | (some header, decoder) =>
            match scan.field statusCode header with
            | .error error => (.error error, decoder)
            | .ok scan => run hp statusCode fuel (rest.drop header.offset) decoder scan

end HeaderScan

/-- The loop of `decode_discard_orphan`: whether the block can be decoded, and the tables after
it. -/
def discardBlock (hp : Hpack) : Nat → Bytes → hp.Decoder → Bool × hp.Decoder
  | 0, _, decoder => (true, decoder)
  | fuel + 1, rest, decoder =>
      if rest.isEmpty then (true, decoder)
      else
        match hp.decode decoder rest with
        | (none, decoder) => (false, decoder)
        | (some header, decoder) => discardBlock hp fuel (rest.drop header.offset) decoder

namespace Session

variable {hp : Hpack}

def decodeDiscardOrphan (s : Session hp) : Session hp :=
  let result := discardBlock hp s.orphanHeaderBlock.length s.orphanHeaderBlock s.decoder
  let s := { s with decoder := result.2, orphanHeaderBlock := [] }
  if result.1 then s else s.fail .HTTP2CompressionError

/-- The end of `decode_header_block`, on a block that is well formed. -/
def acceptBlock (s : Session hp) (stream : Stream) (scan : HeaderScan) : Session hp × Stream :=
  if scan.status = 0 then (s, { stream with fatalError := some .HTTP2ProtocolError })
  else if 100 ≤ scan.status && scan.status < 200 then
    let stream := if scan.status = 100 then { stream with awaitingContinue := false } else stream
    (s, if stream.remoteClosed then { stream with fatalError := some .HTTP2ProtocolError }
      else stream)
  else
    let stream := { stream with
      statusCode := scan.status
      headersReady := true
      decodedBytes := scan.decodedBytes
      decodedHeaders := stream.decodedHeaders ++ scan.headers }
    if stream.awaitingContinue then
      -- The server has decided without the body: an empty DATA frame ends the request.
      (s.writeFrame .data END_STREAM stream.id [],
        { stream with awaitingContinue := false }.sentEndStream)
    else (s, stream)

/-- The header block of a stream is complete. -/
def decodeHeaderBlock (s : Session hp) (stream : Stream) : Session hp × Stream :=
  let result := HeaderScan.run hp stream.statusCode stream.headerBlock.length stream.headerBlock
    s.decoder { decodedBytes := stream.decodedBytes }
  let s := { s with decoder := result.2 }
  let stream := { stream with headerBlock := [] }
  match result.1 with
  -- The connection is over: what was decoded is not kept.
  | .error error => (s.fail error, stream)
  | .ok scan =>
      if scan.malformed then
        let (s, stream) := s.rstStream stream .protocolError
        (s, { stream with fatalError := some .HTTP2ProtocolError })
      else if stream.statusCode ≠ 0 then
        (s, if stream.headersEndStream then stream
          else { stream with fatalError := some .HTTP2ProtocolError })
      else s.acceptBlock stream scan

end Session

/-! ### Settings -/

/-- The settings of a SETTINGS payload. -/
def settingsUnits : Bytes → List (Nat × Nat)
  | a :: b :: c :: d :: e :: f :: rest =>
      (fromBeBytes [a, b], fromBeBytes [c, d, e, f]) :: settingsUnits rest
  | _ => []

/-- The windows of the streams move by `delta`; `true` when one of them would become too large,
where the loop stops. -/
def shiftWindows (delta : Int) :
    OrderedMap Nat Stream → Option (OrderedMap Nat Stream × Bool)
  | [] => some ([], false)
  | (id, stream) :: rest =>
      let next := stream.sendWindow + delta
      if MAX_WINDOW_SIZE < next then some ((id, stream) :: rest, true)
      else do
        let next ← i32Cast next
        let (rest, tooLarge) ← shiftWindows delta rest
        some ((id, { stream with sendWindow := next }) :: rest, tooLarge)

namespace Session

variable {hp : Hpack}

def applySetting (s : Session hp) (unit : Nat × Nat) : Option (Session hp) :=
  let value := unit.2
  if unit.1 = SETTINGS_MAX_FRAME_SIZE then
    if value < DEFAULT_MAX_FRAME_SIZE || MAX_FRAME_SIZE < value then
      some (s.fail .HTTP2ProtocolError)
    else some { s with remoteMaxFrameSize := value }
  else if unit.1 = SETTINGS_MAX_CONCURRENT_STREAMS then
    some { s with remoteMaxConcurrentStreams := value }
  else if unit.1 = SETTINGS_HEADER_TABLE_SIZE then
    some { s with
      pendingHpackEncCapacity := some (min (s.pendingHpackEncCapacity.getD value) value) }
  else if unit.1 = SETTINGS_INITIAL_WINDOW_SIZE then
    if MAX_WINDOW_SIZE < value then some (s.fail .HTTP2FlowControlError)
    else do
      let delta : Int := (value : Int) - s.remoteInitialWindowSize
      let (streams, tooLarge) ← shiftWindows delta s.streams
      let s : Session hp := { s with remoteInitialWindowSize := value, streams := streams }
      some (if tooLarge then s.fail .HTTP2FlowControlError else s)
  else some s

/-- The loop over the settings, until one of them is an error. -/
def applySettings : List (Nat × Nat) → Session hp → Option (Session hp)
  | [], s => some s
  | unit :: units, s => do
      let s ← s.applySetting unit
      if s.fatalError.isSome then some s else applySettings units s

def dispatchSettings (s : Session hp) (frame : Frame) : Option (Session hp) :=
  if frame.streamIdentifier ≠ 0 then some (s.fail .HTTP2ProtocolError)
  else if hasFlag frame.flags ACK then
    some (if frame.length ≠ 0 then s.fail .HTTP2FrameSizeError else s)
  else if frame.length % SETTINGS_UNIT_BYTE_SIZE ≠ 0 then some (s.fail .HTTP2FrameSizeError)
  else do
    let s ← s.applySettings (settingsUnits frame.payload)
    if s.fatalError.isSome then some s
    else if WRITE_BUFFER_CONTROL_LIMIT ≤ s.writeBuffer.length then
      some (s.fail .HTTP2EnhanceYourCalm)
    else some { s.writeFrame .settings ACK 0 [] with settingsReceived := true }

/-! ### The other frames -/

/-- A stream that the client has not opened. -/
def isIdle (s : Session hp) (streamId : Nat) : Bool :=
  streamId % 2 == 0 || decide (s.nextStreamId ≤ streamId)

def dispatchWindowUpdate (s : Session hp) (frame : Frame) : Option (Session hp) :=
  if frame.length ≠ 4 then some (s.fail .HTTP2FrameSizeError)
  else do
    let inc ← i32Cast (uint31 (u32FromBytes (frame.payload.take 4)))
    if frame.streamIdentifier = 0 then
      if inc = 0 then some (s.fail .HTTP2ProtocolError)
      else
        let next := s.connSendWindow + inc
        if MAX_WINDOW_SIZE < next then some (s.fail .HTTP2FlowControlError)
        else do
          let next ← i32Cast next
          some { s with connSendWindow := next, streamProgressed := true }
    else
      match s.streams.get (uint31 frame.streamIdentifier) with
      | some stream =>
          if inc = 0 then
            let (s, stream) := s.rstStream stream .protocolError
            some (s.putStream { stream with fatalError := some .HTTP2ProtocolError })
          else
            let next := stream.sendWindow + inc
            if MAX_WINDOW_SIZE < next then
              let (s, stream) := s.rstStream stream .flowControlError
              some (s.putStream { stream with fatalError := some .HTTP2FlowControlError })
            else do
              let next ← i32Cast next
              some { s.putStream { stream with sendWindow := next } with streamProgressed := true }
      | none =>
          some (if s.isIdle frame.streamIdentifier then s.fail .HTTP2ProtocolError else s)

def dispatchPing (s : Session hp) (frame : Frame) : Session hp :=
  if frame.length ≠ 8 then s.fail .HTTP2FrameSizeError
  else if frame.streamIdentifier ≠ 0 then s.fail .HTTP2ProtocolError
  else if hasFlag frame.flags ACK then s
  else if WRITE_BUFFER_CONTROL_LIMIT ≤ s.writeBuffer.length then s.fail .HTTP2EnhanceYourCalm
  else s.writeFrame .ping ACK 0 (frame.payload.take 8)

def dispatchPriority (s : Session hp) (frame : Frame) : Session hp :=
  if frame.streamIdentifier = 0 then s.fail .HTTP2ProtocolError
  else if frame.length ≠ STREAM_PRIORITY_BYTE_SIZE then s.fail .HTTP2FrameSizeError
  else s

/-- The end of a header block of a stream. -/
def endHeaders (s : Session hp) (stream : Stream) : Session hp :=
  let stream := if stream.headersEndStream then stream.recvEndStream else stream
  let (s, stream) := s.decodeHeaderBlock stream
  s.putStream stream

def dispatchHeaders (s : Session hp) (frame : Frame) : Session hp :=
  match s.streams.get frame.streamIdentifier with
  | none =>
      if frame.streamIdentifier = 0 || s.isIdle frame.streamIdentifier then
        s.fail .HTTP2ProtocolError
      else
        match headerFragment frame with
        | .error error => s.fail error
        | .ok fragment =>
            let s := { s with orphanHeaderBlock := fragment }
            if hasFlag frame.flags END_HEADERS then s.decodeDiscardOrphan
            else { s with expectingContinuation := frame.streamIdentifier }
  | some stream =>
      let s := { s with streamProgressed := true }
      match headerFragment frame with
      | .error error => s.fail error
      | .ok fragment =>
          let stream := { stream with
            headerBlock := fragment
            headersEndStream := hasFlag frame.flags END_STREAM }
          if hasFlag frame.flags END_HEADERS then s.endHeaders stream
          else { s.putStream stream with expectingContinuation := stream.id }

def dispatchContinuation (s : Session hp) (frame : Frame) : Session hp :=
  if s.expectingContinuation = 0 || frame.streamIdentifier ≠ s.expectingContinuation then
    s.fail .HTTP2ProtocolError
  else
    match s.streams.get s.expectingContinuation with
    | some stream =>
        if LOCAL_MAX_HEADER_LIST_SIZE < stream.headerBlock.length + frame.length then
          s.fail .HTTP2HeaderListTooLarge
        else
          let stream := { stream with headerBlock := stream.headerBlock ++ frame.payload }
          if hasFlag frame.flags END_HEADERS then
            { s with expectingContinuation := 0 }.endHeaders stream
          else s.putStream stream
    | none =>
        if LOCAL_MAX_HEADER_LIST_SIZE < s.orphanHeaderBlock.length + frame.length then
          s.fail .HTTP2HeaderListTooLarge
        else
          let s := { s with orphanHeaderBlock := s.orphanHeaderBlock ++ frame.payload }
          if hasFlag frame.flags END_HEADERS then
            { s with expectingContinuation := 0 }.decodeDiscardOrphan
          else s

/-- DATA that was counted on the connection. -/
def takeData (s : Session hp) (frame : Frame) : Session hp :=
  match s.streams.get frame.streamIdentifier with
  | none =>
      if frame.streamIdentifier = 0 || s.isIdle frame.streamIdentifier then
        s.fail .HTTP2ProtocolError
      else s
  | some stream =>
      let s := { s with streamProgressed := true }
      if stream.statusCode = 0 then
        let (s, stream) := s.rstStream stream .protocolError
        s.putStream { stream with fatalError := some .HTTP2ProtocolError }
      else if stream.remoteClosed then
        s.putStream
          { stream with fatalError := some (stream.fatalError.getD .HTTP2ProtocolError) }
      else
        let stream := { stream with unackedBytes := saturatingAdd stream.unackedBytes frame.length }
        match if hasFlag frame.flags PADDED then stripPadding frame.payload
          else some frame.payload with
        | none => (s.putStream stream).fail .HTTP2ProtocolError
        | some fragment =>
            let stream := if hasFlag frame.flags END_STREAM then stream.recvEndStream else stream
            s.putStream
              { stream with
                dataBytesReceived := stream.dataBytesReceived + fragment.length
                bodyBuffer := stream.bodyBuffer ++ fragment }

def dispatchData (s : Session hp) (frame : Frame) : Session hp :=
  { s with connUnackedBytes := saturatingAdd s.connUnackedBytes frame.length }.takeData frame

def dispatchRstStream (s : Session hp) (frame : Frame) : Session hp :=
  if frame.length ≠ 4 then s.fail .HTTP2FrameSizeError
  else if frame.streamIdentifier = 0 || s.isIdle frame.streamIdentifier then
    s.fail .HTTP2ProtocolError
  else
    match s.streams.get frame.streamIdentifier with
    | none => s
    | some stream =>
        let code := u32FromBytes (frame.payload.take 4)
        let error :=
          if code = ErrorCode.noError.value then
            if stream.remoteClosed then none else some Error.HTTP2StreamReset
          else if code = ErrorCode.refusedStream.value then some Error.HTTP2RefusedStream
          else some Error.HTTP2StreamReset
        s.putStream { stream with rstDone := true, state := .Closed, fatalError := error }

/-- What GOAWAY means for a stream. -/
def goneAway (graceful : Bool) (lastId : Nat) (stream : Stream) : Stream :=
  if lastId < stream.id then
    { stream with
      fatalError := some (if graceful then .HTTP2RefusedStream else .HTTP2GoAway) }
  else if !graceful && !stream.remoteClosed then
    { stream with fatalError := some .HTTP2GoAway }
  else stream

def dispatchGoaway (s : Session hp) (frame : Frame) : Session hp :=
  if frame.streamIdentifier ≠ 0 then s.fail .HTTP2ProtocolError
  else if frame.length < 8 then s.fail .HTTP2FrameSizeError
  else
    let lastId := uint31 (u32FromBytes (frame.payload.take 4))
    let code := u32FromBytes ((frame.payload.take 8).drop 4)
    let graceful := code == ErrorCode.noError.value
    { s with
      goawayReceived := true
      goawayLastStreamId := lastId
      streams := s.streams.map fun entry => (entry.1, goneAway graceful lastId entry.2) }

/-- One complete frame. -/
def dispatchFrame (s : Session hp) (frame : Frame) : Option (Session hp) :=
  let type := FrameType.ofByte? frame.type_
  if s.expectingContinuation ≠ 0 ∧ type ≠ some .continuation then
    some (s.fail .HTTP2ProtocolError)
  else if s.settingsReceived = false ∧ type ≠ some .settings then
    some (s.fail .HTTP2ProtocolError)
  else
    match type with
    | some .settings => s.dispatchSettings frame
    | some .windowUpdate => s.dispatchWindowUpdate frame
    | some .ping => some (s.dispatchPing frame)
    | some .priority => some (s.dispatchPriority frame)
    | some .headers => some (s.dispatchHeaders frame)
    | some .continuation => some (s.dispatchContinuation frame)
    | some .data => some (s.dispatchData frame)
    | some .rstStream => some (s.dispatchRstStream frame)
    | some .goaway => some (s.dispatchGoaway frame)
    | some .pushPromise => some (s.fail .HTTP2ProtocolError)
    | none => some s

/-- The loop of `parse_frames`. -/
def parseFramesLoop : Nat → Session hp → Bytes → Option (Session hp × Bytes)
  | 0, _, _ => none
  | fuel + 1, s, remaining =>
      match nextFrame remaining with
      | .incomplete => some (s, remaining)
      | .tooLarge => some (s.fail .HTTP2FrameSizeError, remaining)
      | .frame frame rest => do
          let s ← (s.record (.received frame)).dispatchFrame frame
          if s.fatalError.isSome then some (s, rest) else parseFramesLoop fuel s rest

/-- Dispatches every complete frame in `buf`; the consumed bytes are given as those that are
left. -/
def parseFrames (s : Session hp) (buf : Bytes) : Option (Session hp × Bytes) :=
  parseFramesLoop (buf.length + 1) s buf

end Session

end Bunx.Http2
