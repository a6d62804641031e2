/-
Module: Bunx.Http2.Wire
Purpose: The HTTP/2 wire format: constants, frame types, frame headers and the split of a byte
  stream into frames (src/http_types/h2.rs, src/http/h2_client/dispatch.rs).
Trusted boundary: the packed structs are read and written byte by byte.
Main exports: FrameType, Frame, FrameHeader, FrameHeader.decode, FrameHeader.encodeInto, NextFrame,
  nextFrame, nextFrame_append, splitFrames
-/
import Bunx.Websocket.Header

namespace Bunx.Http2

open Lib
open Websocket (toBeBytes fromBeBytes toBeBytes_length fromBeBytes_toBeBytes)

abbrev Bytes := List UInt8

/-! ### Constants -/

def CLIENT_PREFACE : Bytes :=
  [0x50, 0x52, 0x49, 0x20, 0x2A, 0x20, 0x48, 0x54, 0x54, 0x50, 0x2F, 0x32, 0x2E, 0x30,
    0x0D, 0x0A, 0x0D, 0x0A, 0x53, 0x4D, 0x0D, 0x0A, 0x0D, 0x0A]

def MAX_WINDOW_SIZE : Nat := 0x7FFFFFFF
def MAX_STREAM_ID : Nat := 0x7FFFFFFF
def MAX_FRAME_SIZE : Nat := 0x00FFFFFF
def DEFAULT_WINDOW_SIZE : Nat := 65535
def DEFAULT_MAX_FRAME_SIZE : Nat := 16384

/-- The frame types that the client sends or looks for; a frame on the wire may have any
type byte. -/
inductive FrameType where
  | data
  | headers
  | priority
  | rstStream
  | settings
  | pushPromise
  | ping
  | goaway
  | windowUpdate
  | continuation
deriving DecidableEq, Repr

def FrameType.toByte : FrameType → UInt8
  | .data => 0x00
  | .headers => 0x01
  | .priority => 0x02
  | .rstStream => 0x03
  | .settings => 0x04
  | .pushPromise => 0x05
  | .ping => 0x06
  | .goaway => 0x07
  | .windowUpdate => 0x08
  | .continuation => 0x09

/-- The type that a byte off the wire names. -/
def FrameType.ofByte? (byte : UInt8) : Option FrameType :=
  match byte.toNat with
  | 0x00 => some .data
  | 0x01 => some .headers
  | 0x02 => some .priority
  | 0x03 => some .rstStream
  | 0x04 => some .settings
  | 0x05 => some .pushPromise
  | 0x06 => some .ping
  | 0x07 => some .goaway
  | 0x08 => some .windowUpdate
  | 0x09 => some .continuation
  | _ => none

/-- `ACK` of a SETTINGS or PING frame. -/
def ACK : UInt8 := 0x1
/-- `END_STREAM` of a DATA or HEADERS frame. -/
def END_STREAM : UInt8 := 0x1
def END_HEADERS : UInt8 := 0x4
/-- `PADDED` of a DATA or HEADERS frame. -/
def PADDED : UInt8 := 0x8
def PRIORITY : UInt8 := 0x20

/-- `flags & flag != 0`. -/
def hasFlag (flags flag : UInt8) : Bool := flags &&& flag != 0

/-- The codes of RST_STREAM and GOAWAY frames. -/
inductive ErrorCode where
  | noError
  | protocolError
  | internalError
  | flowControlError
  | frameSizeError
  | refusedStream
  | cancel
  | compressionError
  | enhanceYourCalm
deriving DecidableEq, Repr

def ErrorCode.value : ErrorCode → Nat
  | .noError => 0x0
  | .protocolError => 0x1
  | .internalError => 0x2
  | .flowControlError => 0x3
  | .frameSizeError => 0x6
  | .refusedStream => 0x7
  | .cancel => 0x8
  | .compressionError => 0x9
  | .enhanceYourCalm => 0xb

def SETTINGS_HEADER_TABLE_SIZE : Nat := 0x1
def SETTINGS_ENABLE_PUSH : Nat := 0x2
def SETTINGS_MAX_CONCURRENT_STREAMS : Nat := 0x3
def SETTINGS_INITIAL_WINDOW_SIZE : Nat := 0x4
def SETTINGS_MAX_FRAME_SIZE : Nat := 0x5
def SETTINGS_MAX_HEADER_LIST_SIZE : Nat := 0x6

/-- The size of a `StreamPriority` on the wire. -/
def STREAM_PRIORITY_BYTE_SIZE : Nat := 5
/-- The size of a `SettingsPayloadUnit` on the wire. -/
def SETTINGS_UNIT_BYTE_SIZE : Nat := 6

/-- `u32_from_bytes`. -/
def u32FromBytes (src : Bytes) : Nat := fromBeBytes src

/-- `UInt31WithReserved::from(value).uint31()`. -/
def uint31 (value : Nat) : Nat := value % 2 ^ 31

theorem uint31_lt (value : Nat) : uint31 value < 2 ^ 31 := Nat.mod_lt _ (by decide)

/-! ### Frames -/

structure FrameHeader where
  length : Nat
  type_ : UInt8
  flags : UInt8
  streamIdentifier : Nat
deriving DecidableEq, Repr

def FRAME_HEADER_BYTE_SIZE : Nat := 9

namespace FrameHeader

/-- The header that nine bytes hold. -/
def decode (raw : Bytes) : FrameHeader where
  length := fromBeBytes (raw.take 3)
  type_ := raw.getD 3 0
  flags := raw.getD 4 0
  streamIdentifier := fromBeBytes ((raw.drop 5).take 4)

def encodeInto (header : FrameHeader) : Bytes :=
  toBeBytes 3 header.length ++ [header.type_, header.flags] ++
    toBeBytes 4 header.streamIdentifier

end FrameHeader

/-- A frame: the reserved bit of the stream identifier is not kept. -/
structure Frame where
  type_ : UInt8
  flags : UInt8
  streamIdentifier : Nat
  payload : Bytes
deriving DecidableEq, Repr

def Frame.length (frame : Frame) : Nat := frame.payload.length

/-- What a byte stream begins with. -/
inductive NextFrame where
  /-- The header or the payload is not all there. -/
  | incomplete
  /-- The declared length is above `DEFAULT_MAX_FRAME_SIZE`. -/
  | tooLarge
  | frame (frame : Frame) (rest : Bytes)
deriving DecidableEq, Repr

/-- One turn of `parse_frames` up to the dispatch of the frame. -/
def nextFrame (remaining : Bytes) : NextFrame :=
  if remaining.length < FRAME_HEADER_BYTE_SIZE then .incomplete
  else
    let header := FrameHeader.decode (remaining.take FRAME_HEADER_BYTE_SIZE)
    let sid := uint31 header.streamIdentifier
    if DEFAULT_MAX_FRAME_SIZE < header.length then .tooLarge
    else
      let frameLen := FRAME_HEADER_BYTE_SIZE + header.length
      if remaining.length < frameLen then .incomplete
      else
        .frame
          ⟨header.type_, header.flags, sid,
            (remaining.take frameLen).drop FRAME_HEADER_BYTE_SIZE⟩
          (remaining.drop frameLen)

/-- A frame takes at least its header. -/
theorem nextFrame_rest {remaining rest : Bytes} {frame : Frame}
    (next : nextFrame remaining = .frame frame rest) :
    rest.length + FRAME_HEADER_BYTE_SIZE ≤ remaining.length ∧
      frame.length ≤ DEFAULT_MAX_FRAME_SIZE ∧ frame.streamIdentifier < 2 ^ 31 := by
  unfold nextFrame at next
  split at next
  · cases next
  · simp only at next
    split at next
    · cases next
    · next header =>
      split at next
      · cases next
      · cases next
        refine ⟨?_, ?_, uint31_lt _⟩
        · rw [List.length_drop]
          omega
        · rw [Frame.length, List.length_drop, List.length_take]
          omega

/-- What follows a complete frame does not change it. -/
theorem nextFrame_append {remaining rest : Bytes} {frame : Frame}
    (next : nextFrame remaining = .frame frame rest) (more : Bytes) :
    nextFrame (remaining ++ more) = .frame frame (rest ++ more) := by
  unfold nextFrame at next ⊢
  split at next
  · cases next
  · next long =>
    have longer : ¬ (remaining ++ more).length < FRAME_HEADER_BYTE_SIZE := by
      rw [List.length_append]
      omega
    rw [if_neg longer, List.take_append_of_le_length (by omega)]
    simp only at next ⊢
    split at next
    · cases next
    · next small =>
      rw [if_neg small]
      split at next
      · cases next
      · next complete =>
        have stillComplete : ¬ (remaining ++ more).length < FRAME_HEADER_BYTE_SIZE +
            (FrameHeader.decode (remaining.take FRAME_HEADER_BYTE_SIZE)).length := by
          rw [List.length_append]
          omega
        rw [if_neg stillComplete, List.take_append_of_le_length (by omega),
          List.drop_append_of_le_length (by omega)]
        cases next
        rfl

/-- A frame that is larger than allowed stays so. -/
theorem nextFrame_append_tooLarge {remaining : Bytes} (next : nextFrame remaining = .tooLarge)
    (more : Bytes) : nextFrame (remaining ++ more) = .tooLarge := by
  unfold nextFrame at next ⊢
  split at next
  · cases next
  · next long =>
    have longer : ¬ (remaining ++ more).length < FRAME_HEADER_BYTE_SIZE := by
      rw [List.length_append]
      omega
    rw [if_neg longer, List.take_append_of_le_length (by omega)]
    simp only at next ⊢
    split at next
    · next large => rw [if_pos large]
    · split at next
      · cases next
      · cases next

/-! ### A byte stream as frames -/

/-- The frames a byte stream begins with, and the bytes behind them, which begin with no
complete frame. -/
def splitFrames (bytes : Bytes) : List Frame × Bytes :=
  match _next : nextFrame bytes with
  | .frame frame rest => (frame :: (splitFrames rest).1, (splitFrames rest).2)
  | .incomplete => ([], bytes)
  | .tooLarge => ([], bytes)
termination_by bytes.length
decreasing_by
  all_goals
    have shorter := (nextFrame_rest _next).1
    have nine : FRAME_HEADER_BYTE_SIZE = 9 := rfl
    omega

end Bunx.Http2
