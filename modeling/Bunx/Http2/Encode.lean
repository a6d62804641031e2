/-
Module: Bunx.Http2.Encode
Purpose: What the HTTP/2 client sends for a request: the preface, the header block in HEADERS and
  CONTINUATION frames and the body in DATA frames under both windows
  (src/http/h2_client/encode.rs).
Trusted boundary: the body that another thread appends to is the list of its bytes; `none` is a
  panic or a loop that does not end.
Main exports: writePreface, classifyRequestHeader, requestFields, writeRequest, writeHeaderBlock,
  writeDataWindowed, drainSendBody, drainSendBodies, encodeHpackTableSizeUpdate
-/
import Bunx.Http2.Session

namespace Bunx.Http2

open Lib
open Websocket (toBeBytes)

def ascii (text : String) : Bytes := text.toList.map fun c => UInt8.ofNat c.toNat

/-! ### Request headers -/

inductive RequestHeader where
  /-- Never forwarded. -/
  | Drop
  /-- Becomes `:authority`. -/
  | Host
  /-- Forwarded when its value is `trailers`. -/
  | Te
  /-- Dropped under `Expect: 100-continue`. -/
  | ContentLength
  | Expect
  /-- Never indexed. -/
  | Sensitive
deriving DecidableEq, Repr

def classifyRequestHeader (name : Bytes) : Option RequestHeader :=
  if name = ascii "connection" then some .Drop
  else if name = ascii "keep-alive" then some .Drop
  else if name = ascii "proxy-connection" then some .Drop
  else if name = ascii "transfer-encoding" then some .Drop
  else if name = ascii "upgrade" then some .Drop
  else if name = ascii "host" then some .Host
  else if name = ascii "te" then some .Te
  else if name = ascii "content-length" then some .ContentLength
  else if name = ascii "expect" then some .Expect
  else if name = ascii "authorization" then some .Sensitive
  else if name = ascii "cookie" then some .Sensitive
  else if name = ascii "set-cookie" then some .Sensitive
  else none

/-- `to_ascii_lowercase`. -/
def lowerByte (c : UInt8) : UInt8 := if 0x41 ≤ c && c ≤ 0x5A then c + 0x20 else c

/-- `copy_lowercase_if_needed`. -/
def copyLowercase (name : Bytes) : Bytes := name.map lowerByte

/-- `eql_case_insensitive_asciii_check_length`. -/
def eqlCaseInsensitive (a b : Bytes) : Bool := copyLowercase a == copyLowercase b

/-- `strings::trim` of blanks and tabs. -/
def trimBlanks (value : Bytes) : Bytes :=
  let isBlank : UInt8 → Bool := fun c => c == 0x20 || c == 0x09
  ((value.dropWhile isBlank).reverse.dropWhile isBlank).reverse

/-- The size of the buffer that names are made lower case in. -/
def LOWER_BUF_LEN : Nat := 256

/-- The first pass over the headers: the authority, and whether the body waits for the server to
ask for it. -/
def firstPass : List (Bytes × Bytes) → Bytes → Bool → Bytes × Bool
  | [], authority, expects => (authority, expects)
  | (name, value) :: headers, authority, expects =>
      if LOWER_BUF_LEN < name.length then firstPass headers authority expects
      else
        match classifyRequestHeader (copyLowercase name) with
        | some .Host => firstPass headers value expects
        | some .Expect =>
            firstPass headers authority (eqlCaseInsensitive value (ascii "100-continue"))
        | _ => firstPass headers authority expects

/-- A field that is given to the coder. -/
structure Field where
  name : Bytes
  value : Bytes
  neverIndex : Bool
deriving DecidableEq, Repr

/-- What becomes of one header in the second pass. -/
def forwardHeader (hasExpectContinue : Bool) (header : Bytes × Bytes) : Option Field :=
  let name := copyLowercase header.1
  match classifyRequestHeader name with
  | some .Drop => none
  | some .Host => none
  | some .Te =>
      if eqlCaseInsensitive (trimBlanks header.2) (ascii "trailers") then
        some ⟨name, header.2, false⟩
      else none
  | some .ContentLength => if hasExpectContinue then none else some ⟨name, header.2, false⟩
  | some .Sensitive => some ⟨name, header.2, true⟩
  | some .Expect => some ⟨name, header.2, false⟩
  | none => some ⟨name, header.2, false⟩

/-- The fields of a request, in the order in which they are encoded. -/
def requestFields (client : Client) : List Field :=
  let found := firstPass client.headers client.urlHost false
  [⟨ascii ":method", client.method, false⟩, ⟨ascii ":scheme", ascii "https", false⟩,
    ⟨ascii ":authority", found.1, false⟩,
    ⟨ascii ":path", if client.path.isEmpty then ascii "/" else client.path, false⟩] ++
    client.headers.filterMap (forwardHeader found.2)

/-! ### The header block -/

/-- The loop of `encode_hpack_table_size_update`. -/
def sizeUpdateRest : Nat → Nat → Bytes
  | 0, _ => []
  | fuel + 1, rest =>
      if 128 ≤ rest then (UInt8.ofNat rest ||| 0x80) :: sizeUpdateRest fuel (rest >>> 7)
      else [UInt8.ofNat rest]

/-- A dynamic table size update. -/
def encodeHpackTableSizeUpdate (value : Nat) : Bytes :=
  if value < 31 then [0x20 ||| UInt8.ofNat value]
  else (0x20 ||| 31) :: sizeUpdateRest value (value - 31)

namespace Session

variable {hp : Hpack}

def encodeSetting (setting value : Nat) : Bytes := toBeBytes 2 setting ++ toBeBytes 4 value

def writePreface (s : Session hp) : Session hp :=
  let s := (s.queue CLIENT_PREFACE).record .preface
  let settings := encodeSetting SETTINGS_ENABLE_PUSH 0 ++
    encodeSetting SETTINGS_INITIAL_WINDOW_SIZE LOCAL_INITIAL_WINDOW_SIZE ++
    encodeSetting SETTINGS_MAX_HEADER_LIST_SIZE LOCAL_MAX_HEADER_LIST_SIZE
  let s := s.writeFrame .settings 0 0 settings
  let s := s.writeWindowUpdate 0 (LOCAL_INITIAL_WINDOW_SIZE - DEFAULT_WINDOW_SIZE)
  { s with prefaceSent := true }

/-- `encode_header` for one field after the other; no block when one fails. -/
def encodeFields : List Field → Session hp → Bytes → Session hp × Option Bytes
  | [], s, encoded => (s, some encoded)
  | field :: fields, s, encoded =>
      let result := hp.encode s.encoder field.name field.value field.neverIndex
      let s := { s with encoder := result.2 }
      match result.1 with
      | none => (s, none)
      | some written => encodeFields fields s (encoded ++ written)

/-- The loop of `write_header_block`. -/
def writeHeaderBlockLoop (streamId : Nat) (endStream : Bool) (max : Nat) :
    Nat → Bytes → Bool → Session hp → Option (Session hp)
  | 0, _, _, _ => none
  | fuel + 1, remaining, first, s =>
      let chunk := remaining.take (min remaining.length max)
      let rest := remaining.drop chunk.length
      let flags := (if rest.isEmpty then END_HEADERS else 0) |||
        (if first && endStream then END_STREAM else 0)
      let s := s.writeFrame (if first then .headers else .continuation) flags streamId chunk
      if rest.isEmpty then some s else writeHeaderBlockLoop streamId endStream max fuel rest false s

def writeHeaderBlock (s : Session hp) (streamId : Nat) (block : Bytes) (endStream : Bool) :
    Option (Session hp) :=
  writeHeaderBlockLoop streamId endStream s.remoteMaxFrameSize (block.length + 1) block true s

/-! ### The body -/

/-- `usize::MAX`. -/
def USIZE_MAX : Nat := 2 ^ 64 - 1

/-- What both windows let through. -/
def window (s : Session hp) (stream : Stream) : Nat :=
  (max (min stream.sendWindow s.connSendWindow) 0).toNat

/-- The loop of `write_data_windowed`. -/
def writeDataLoop (endStream : Bool) (cap : Nat) :
    Nat → Bytes → Nat → Session hp → Stream → Option (Session hp × Stream × Nat)
  | 0, _, _, _, _ => none
  | fuel + 1, remaining, consumed, s, stream =>
      if !remaining.isEmpty && s.window stream == 0 then some (s, stream, consumed)
      else if !remaining.isEmpty && decide (WRITE_BUFFER_HIGH_WATER ≤ s.writeBuffer.length) then
        some (s, stream, consumed)
      else if decide (cap ≤ consumed) && !remaining.isEmpty then some (s, stream, consumed)
      else
        let chunkLen := min (min remaining.length s.remoteMaxFrameSize) (s.window stream)
        let last := chunkLen == remaining.length
        let flags := if last && endStream then END_STREAM else 0
        let t := s.writeFrame .data flags stream.id (remaining.take chunkLen)
        do
          let len ← i32Cast chunkLen
          let t : Session hp := { t with connSendWindow := t.connSendWindow - len }
          let sent : Stream := { stream with sendWindow := stream.sendWindow - len }
          if last then some (t, sent, consumed + chunkLen)
          else
            writeDataLoop endStream cap fuel (remaining.drop chunkLen) (consumed + chunkLen) t sent

/-- DATA frames for as much of `data` as may be sent; how many bytes that is. -/
def writeDataWindowed (s : Session hp) (stream : Stream) (data : Bytes) (endStream : Bool)
    (cap : Nat) : Option (Session hp × Stream × Nat) :=
  writeDataLoop endStream cap (data.length + 1) data 0 s stream

/-- The request body that is left, with the client it belongs to. -/
def setBody (stream : Stream) (client : Client) (body : HTTPRequestBody) : Stream :=
  { stream with client := some { client with body := body } }

/-- Sends what the windows allow of the request body. -/
def drainSendBody (s : Session hp) (stream : Stream) (cap : Nat) :
    Option (Session hp × Stream) :=
  if stream.localClosed || stream.awaitingContinue || stream.fatalError.isSome then
    some (s, stream)
  else
    match stream.client with
    | none => some (s, stream)
    | some client =>
        match client.body with
        | .bytes _ => do
            let (s, stream, sent) ← s.writeDataWindowed stream stream.pendingBody true cap
            let stream := { stream with pendingBody := stream.pendingBody.drop sent }
            some (s, if stream.pendingBody.isEmpty then stream.sentEndStream else stream)
        | .stream none _ => some (s, stream)
        | .stream (some data) ended =>
            if data.length == 0 && !ended then some (s, stream)
            else do
              let (s, stream, sent) ← s.writeDataWindowed stream data ended cap
              let rest := data.drop sent
              let stream := setBody stream client (.stream (some rest) ended)
              let stream := if rest.isEmpty && ended then stream.sentEndStream else stream
              some (s, if stream.localClosed then setBody stream client (.stream none ended)
                else stream)
        | .sendfile => none

/-- The turn of one stream in a pass over all of them, and whether the pass makes progress. -/
def drainTurn (slice : Nat) (state : Session hp × Bool) (id : Nat) :
    Option (Session hp × Bool) :=
  match state.1.streams.get id with
  | none => some state
  | some stream =>
      if stream.localClosed || decide (stream.sendWindow ≤ 0) then some state
      else do
        let (s, stream) ← state.1.drainSendBody stream slice
        some (s.putStream stream,
          state.2 || s.connSendWindow != state.1.connSendWindow || stream.localClosed)

/-- The loop of `drain_send_bodies`; a pass goes through the streams by index, and no stream is
added or removed meanwhile. -/
def drainSendBodiesLoop (slice : Nat) : Nat → Session hp → Option (Session hp)
  | 0, _ => none
  | fuel + 1, s =>
      if decide (0 < s.connSendWindow) && decide (s.writeBuffer.length < WRITE_BUFFER_HIGH_WATER)
      then do
        let (s, progressed) ← s.streams.keys.foldlM (drainTurn slice) (s, false)
        if progressed then drainSendBodiesLoop slice fuel s else some s
      else some s

/-- Streams whose body is not sent completely. -/
def openBodies (s : Session hp) : Nat := s.streams.countP fun entry => !entry.2.localClosed

def drainSendBodies (s : Session hp) : Option (Session hp) :=
  drainSendBodiesLoop s.remoteMaxFrameSize (s.connSendWindow.toNat + s.openBodies + 1) s

end Session

/-! ### Requests -/

/-- There are bytes to send behind the header block. -/
def HTTPRequestBody.isInline : HTTPRequestBody → Bool
  | .bytes body => !body.isEmpty
  | _ => false

def HTTPRequestBody.isStreaming : HTTPRequestBody → Bool
  | .stream _ _ => true
  | _ => false

namespace Session

variable {hp : Hpack}

/-- The table size that the peer has asked for goes in front of the block. -/
def announceCapacity (s : Session hp) : Session hp × Bytes :=
  match s.pendingHpackEncCapacity with
  | none => (s, [])
  | some cap =>
      ({ s with
          pendingHpackEncCapacity := none
          encoder := hp.setEncoderMaxCapacity s.encoder cap },
        encodeHpackTableSizeUpdate cap)

/-- What follows the header block at once. -/
def writeBody (s : Session hp) (client : Client) (stream : Stream) :
    Option (Session hp × Stream × Bool) :=
  match client.body with
  | .bytes body =>
      if client.body.isInline then do
        let (s, stream) ← s.drainSendBody { stream with pendingBody := body } USIZE_MAX
        some (s, stream, true)
      else some (s, stream.sentEndStream, true)
  | .sendfile => some (s, stream.sentEndStream, true)
  | .stream _ _ => some (s, stream, true)

/-- Sends the request of a stream; `false` when a field cannot be encoded. -/
def writeRequest (s : Session hp) (client : Client) (stream : Stream) :
    Option (Session hp × Stream × Bool) :=
  let announced := s.announceCapacity
  match encodeFields (requestFields client) announced.1 announced.2 with
  | (s, none) => some (s, stream, false)
  | (s, some encoded) =>
      let hasExpectContinue := (firstPass client.headers client.urlHost false).2
      let stream :=
        if hasExpectContinue && (client.body.isInline || client.body.isStreaming) then
          { stream with awaitingContinue := true }
        else stream
      do
        let s ← s.writeHeaderBlock stream.id encoded
          (!client.body.isInline && !client.body.isStreaming)
        s.writeBody client stream

end Session

end Bunx.Http2
