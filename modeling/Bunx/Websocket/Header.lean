/-
Module: Bunx.Websocket.Header
Purpose: The two-byte header of a WebSocket frame and the sizes of frames
  (src/http/websocket.rs).
Trusted boundary: the packed `u16` is the record of its bit fields.
Main exports: Opcode, WebsocketHeader, WebsocketHeader.slice, WebsocketHeader.fromSlice,
  WebsocketHeader.fromSlice_slice, packLength, lengthByteCount, frameSizeIncludingMask, toBeBytes,
  fromBeBytes
-/
import Bunx.Lib.Bytes

namespace Bunx.Websocket

scoped instance four_neZero : NeZero 4 := ⟨by decide⟩

open Lib

abbrev Bytes := List UInt8

/-! ### Opcodes -/

inductive Opcode where
  | continued
  | text
  | binary
  | res3
  | res4
  | res5
  | res6
  | res7
  | close
  | ping
  | pong
  | resB
  | resC
  | resD
  | resE
  | resF
deriving DecidableEq, Repr, Inhabited

namespace Opcode

/-- The discriminant. -/
def raw : Opcode → Nat
  | continued => 0
  | text => 1
  | binary => 2
  | res3 => 3
  | res4 => 4
  | res5 => 5
  | res6 => 6
  | res7 => 7
  | close => 8
  | ping => 9
  | pong => 10
  | resB => 11
  | resC => 12
  | resD => 13
  | resE => 14
  | resF => 15

def fromRaw (n : Nat) : Opcode :=
  match n % 16 with
  | 0 => continued
  | 1 => text
  | 2 => binary
  | 3 => res3
  | 4 => res4
  | 5 => res5
  | 6 => res6
  | 7 => res7
  | 8 => close
  | 9 => ping
  | 10 => pong
  | 11 => resB
  | 12 => resC
  | 13 => resD
  | 14 => resE
  | _ => resF

/-- The control opcodes have the bit `0x8`. -/
def isControl (op : Opcode) : Bool := op.raw / 8 % 2 = 1

theorem raw_lt (op : Opcode) : op.raw < 16 := by
  cases op <;> decide

theorem fromRaw_of_mod {n : Nat} {op : Opcode} (low : n % 16 = op.raw) : fromRaw n = op := by
  unfold fromRaw
  rw [low]
  cases op <;> rfl

end Opcode

/-! ### The header -/

/-- The fields of the packed header, from the low bits to the high ones. -/
structure WebsocketHeader where
  len : Fin 128
  mask : Bool
  opcode : Opcode
  /-- RSV2 and RSV3. -/
  rsv : Fin 4
  /-- RSV1. -/
  compressed : Bool
  isFinal : Bool
deriving DecidableEq, Repr

namespace WebsocketHeader

/-- The header whose bits are all zero, which frames are built from. -/
def zero : WebsocketHeader :=
  { len := 0, mask := false, opcode := .continued, rsv := 0, compressed := false,
    isFinal := false }

/-- The bytes of the big-endian `u16`. -/
def slice (header : WebsocketHeader) : Bytes :=
  [UInt8.ofNat (header.opcode.raw + 16 * header.rsv + 64 * header.compressed.toNat +
      128 * header.isFinal.toNat),
    UInt8.ofNat (header.len + 128 * header.mask.toNat)]

def fromSlice (b0 b1 : UInt8) : WebsocketHeader where
  len := ⟨b1.toNat % 128, Nat.mod_lt _ (by decide)⟩
  mask := b1.toNat / 128 % 2 = 1
  opcode := .fromRaw b0.toNat
  rsv := ⟨b0.toNat / 16 % 4, Nat.mod_lt _ (by decide)⟩
  compressed := b0.toNat / 64 % 2 = 1
  isFinal := b0.toNat / 128 % 2 = 1

/-- A bit is read back from a number it is the last bit of. -/
theorem decide_bit {n : Nat} {flag : Bool} (bit : n % 2 = flag.toNat) :
    decide (n % 2 = 1) = flag := by
  cases flag <;> simp only [Bool.toNat_false, Bool.toNat_true] at bit <;> simp [bit]

/-- A header is read back from its bytes. -/
theorem fromSlice_slice (header : WebsocketHeader) :
    ∃ b0 b1, header.slice = [b0, b1] ∧ fromSlice b0 b1 = header := by
  obtain ⟨len, mask, opcode, rsv, compressed, isFinal⟩ := header
  have small := opcode.raw_lt
  have maskSmall := mask.toNat_le
  have compressedSmall := compressed.toNat_le
  have finalSmall := isFinal.toNat_le
  have high : (UInt8.ofNat (opcode.raw + 16 * rsv + 64 * compressed.toNat +
      128 * isFinal.toNat)).toNat =
        opcode.raw + 16 * rsv + 64 * compressed.toNat + 128 * isFinal.toNat := by
    rw [UInt8.toNat_ofNat']
    exact Nat.mod_eq_of_lt (by omega)
  have low : (UInt8.ofNat (len + 128 * mask.toNat)).toNat = len + 128 * mask.toNat := by
    rw [UInt8.toNat_ofNat']
    exact Nat.mod_eq_of_lt (by omega)
  refine ⟨_, _, rfl, ?_⟩
  rw [fromSlice, mk.injEq]
  refine ⟨Fin.ext ?_, decide_bit ?_, Opcode.fromRaw_of_mod ?_, Fin.ext ?_, decide_bit ?_,
    decide_bit ?_⟩
  · exact (congrArg (· % 128) low).trans (by omega)
  · rw [low]
    omega
  · rw [high]
    omega
  · exact (congrArg (· / 16 % 4) high).trans (by omega)
  · rw [high]
    omega
  · rw [high]
    omega

end WebsocketHeader

/-! ### Lengths and sizes -/

/-- The seven-bit length field for a payload. -/
def packLength (length : Nat) : Fin 128 :=
  if small : length ≤ 125 then ⟨length, by omega⟩
  else if length ≤ 0xFFFF then 126
  else 127

/-- How many bytes the extended length takes. -/
def lengthByteCount (byteLength : Nat) : Nat :=
  if byteLength ≤ 125 then 0
  else if byteLength ≤ 0xFFFF then 2
  else 8

def frameSize (byteLength : Nat) : Nat :=
  2 + byteLength + lengthByteCount byteLength

def frameSizeIncludingMask (byteLength : Nat) : Nat :=
  frameSize byteLength + 4

/-- `to_be_bytes` of an integer of `count` bytes. -/
def toBeBytes (count n : Nat) : Bytes := (leBytes count n).reverse

/-- `from_be_bytes`. -/
def fromBeBytes (bytes : Bytes) : Nat := leValue bytes.reverse

@[simp] theorem toBeBytes_length (count n : Nat) : (toBeBytes count n).length = count := by
  rw [toBeBytes, List.length_reverse, leBytes_length]

theorem fromBeBytes_toBeBytes {count n : Nat} (fits : n < 256 ^ count) :
    fromBeBytes (toBeBytes count n) = n := by
  rw [fromBeBytes, toBeBytes, List.reverse_reverse, leValue_leBytes fits]

end Bunx.Websocket
