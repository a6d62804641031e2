/-
Module: Bunx.WindowsShim.BinLinkingShim
Purpose: The files that tell the launcher of a package binary on Windows what to run: how they are
  written, and how the path is read back.
Trusted boundary: the counts and conversions of simdutf are parameters
Main exports: Flags, Shebang, BinLinkingShim, encodeInto, looseDecode
-/
import Bunx.Lib.Bytes

namespace Bunx.WindowsShim

open Lib

abbrev Bytes : Type := List UInt8

/-- Text in UTF-16. -/
abbrev Units : Type := List UInt16

/-! ### Flags -/

namespace VersionFlag

def v5 : UInt16 := 5478

def current : UInt16 := v5

def max : UInt16 := 8191

end VersionFlag

structure Flags where
  bits : UInt16
deriving DecidableEq

namespace Flags

def new (isNodeOrBun isNode hasShebang : Bool) (versionTag : UInt16) : Flags :=
  ⟨isNodeOrBun.toUInt16 ||| isNode.toUInt16 <<< 1 ||| hasShebang.toUInt16 <<< 2 |||
    versionTag <<< 3⟩

def hasShebang (flags : Flags) : Bool := flags.bits &&& 4 ≠ 0

def setIsNode (flags : Flags) (v : Bool) : Flags := ⟨flags.bits &&& ~~~(2 : UInt16) ||| v.toUInt16 <<< 1⟩

def isValid (flags : Flags) : Bool :=
  flags.bits &&& (new false false false VersionFlag.max).bits =
    (new false false false VersionFlag.current).bits

end Flags

/-! ### Conversion of the launcher -/

/-- simdutf: how many units a text has in UTF-16, and the units, or none where it reports an error. -/
structure Simdutf where
  utf16Length : Bytes → Nat
  convert : Bytes → Option Units

/-- One sequence of WTF-8: the code point, and how many bytes it has. -/
def decodeWtf8One : Bytes → Nat × Nat
  | [] => (0xFFFD, 1)
  | b0 :: rest =>
      if b0 < 0x80 then (b0.toNat, 1)
      else if b0 < 0xC0 then (0xFFFD, 1)
      else
        match rest with
        | [] => (0xFFFD, 1)
        | b1 :: rest =>
            if b0 < 0xE0 then ((b0 &&& 0x1F).toNat * 64 + (b1 &&& 0x3F).toNat, 2)
            else
              match rest with
              | [] => (0xFFFD, 1)
              | b2 :: rest =>
                  if b0 < 0xF0 then
                    (((b0 &&& 0x0F).toNat * 64 + (b1 &&& 0x3F).toNat) * 64 + (b2 &&& 0x3F).toNat, 3)
                  else
                    match rest with
                    | [] => (0xFFFD, 1)
                    | b3 :: _ =>
                        ((((b0 &&& 0x07).toNat * 64 + (b1 &&& 0x3F).toNat) * 64 +
                          (b2 &&& 0x3F).toNat) * 64 + (b3 &&& 0x3F).toNat, 4)

def encodeSurrogatePair (cp : Nat) : Units :=
  [UInt16.ofNat (0xD800 + (cp - 0x10000) / 1024), UInt16.ofNat (0xDC00 + (cp - 0x10000) % 1024)]

/-- The units of the fallback; each turn takes a byte. -/
def wtf8Units : Nat → Bytes → Units
  | 0, _ => []
  | _, [] => []
  | fuel + 1, input =>
      let (cp, adv) := decodeWtf8One input
      (if cp ≤ 0xFFFF then [UInt16.ofNat cp] else encodeSurrogatePair cp) ++
        wtf8Units fuel (input.drop adv)

/-- What `convert_utf8_to_utf16_in_buffer` puts into a buffer of a length; none where it panics. -/
def convertedUnits (simdutf : Simdutf) (bufLen : Nat) (input : Bytes) : Option Units :=
  if input = [] then some []
  else if input.length > bufLen ∧ simdutf.utf16Length input > bufLen then none
  else
    let units := (simdutf.convert input).getD (wtf8Units input.length input)
    if units.length ≤ bufLen then some units else none

/-! ### Writing -/

structure Shebang where
  launcher : Bytes
  utf16Len : UInt32
  isNodeOrBun : Bool

namespace Shebang

/-- Launchers that `init` takes: their units are counted by simdutf. -/
def init (simdutf : Simdutf) (launcher : Bytes) (isNodeOrBun : Bool) : Option Shebang :=
  let count := simdutf.utf16Length launcher
  if count < 2 ^ 32 then some { launcher, utf16Len := UInt32.ofNat count, isNodeOrBun } else none

def encodedLength (shebang : Shebang) : Nat := (1 + shebang.utf16Len.toNat) * 2 + 4 * 2

/-- `node`. -/
def nodeWord : Bytes := [0x6E, 0x6F, 0x64, 0x65]

def isNode (shebang : Shebang) : Bool :=
  nodeWord.isPrefixOf shebang.launcher &&
    (shebang.launcher.length = 4 || shebang.launcher[4]? = some 0x20)

end Shebang

/-- The path is relative to `node_modules`, without a slash in front. -/
structure BinLinkingShim where
  binPath : Units
  shebang : Option Shebang
  nonempty : binPath ≠ []
  noSlash : binPath.head? ≠ some 0x2F

namespace BinLinkingShim

def encodedLength (shim : BinLinkingShim) : Nat :=
  (shim.binPath.length + 2) * 2 + 2 +
    match shim.shebang with
    | some shebang => shebang.encodedLength
    | none => 0

def flags (shim : BinLinkingShim) : Flags :=
  match shim.shebang with
  | some shebang =>
      (Flags.new shebang.isNodeOrBun false true VersionFlag.current).setIsNode shebang.isNode
  | none => Flags.new false false false VersionFlag.current

/-- The buffer must be exactly the correct length. -/
structure Buffer (shim : BinLinkingShim) where
  units : Units
  exact : units.length * 2 = shim.encodedLength

/-- Units are written in front of what is left of the buffer; none where they do not fit. -/
def put (units : Units) (buf : Units × Units) : Option (Units × Units) :=
  if units.length ≤ buf.2.length then some (buf.1 ++ units, buf.2.drop units.length) else none

def doubleQuote : UInt16 := 0x22
def space : UInt16 := 0x20

/-- An unaligned `u32` in two units. -/
def u32Units (v : Nat) : Units := [UInt16.ofNat v, UInt16.ofNat (v / 65536)]

/-- The launcher in its own window of the buffer, and its lengths. -/
def putShebang (simdutf : Simdutf) (binPath : Units) (shebang : Shebang) (buf : Units × Units) :
    Option (Units × Units) :=
  let windowLen := shebang.utf16Len.toNat
  if windowLen ≤ buf.2.length then do
    let units ← convertedUnits simdutf windowLen shebang.launcher
    let buf ← put (units ++ (buf.2.take windowLen).drop units.length) buf
    let buf ← put [space] buf
    let binPathByteLen := binPath.length * 2
    if binPathByteLen < 2 ^ 32 then do
      let buf ← put (u32Units binPathByteLen) buf
      put (u32Units (shebang.utf16Len * 2 + 2).toNat) buf
    else none
  else none

/-- `encode_into`: the buffer when all has been written; none where it panics. -/
def encodeInto (simdutf : Simdutf) (shim : BinLinkingShim) (buffer : shim.Buffer) :
    Option Units := do
  let buf ← put shim.binPath ([], buffer.units)
  let buf ← put [doubleQuote, 0] buf
  let buf ←
    match shim.shebang with
    | some shebang => putShebang simdutf shim.binPath shebang buf
    | none => some buf
  let (written, rest) ← put [shim.flags.bits] buf
  return written ++ rest

end BinLinkingShim

/-! ### Reading -/

/-- The bytes of units, low byte first. -/
def bytesOf (units : Units) : Bytes := units.flatMap fun unit => leBytes 2 unit.toNat

def unitsOf : Bytes → Units
  | lo :: hi :: rest => UInt16.ofNat (leValue [lo, hi]) :: unitsOf rest
  | _ => []

structure Decoded where
  binPath : Units
  flags : Flags
deriving DecidableEq

/-- `loose_decode`; the outer option is none where a read is out of range. -/
def looseDecode (input : Bytes) : Option (Option Decoded) :=
  if input.length < 2 + 2 * 4 + 8 then some none
  else do
    let flags : Flags := ⟨UInt16.ofNat (← readLe input (input.length - 2) 2)⟩
    if flags.isValid = false then return none
    else
      let binPathU8 ←
        if flags.hasShebang then do
          let binPathByteLen ← readLe input (input.length - 2 - 2 * 4) 4
          if binPathByteLen % 2 ≠ 0 then some none
          else if binPathByteLen > input.length - 8 then some none
          else if binPathByteLen ≤ input.length then some (some (input.take binPathByteLen))
          else none
        else some (some (input.take (input.length - 2)))
      match binPathU8 with
      | none => return none
      | some binPathU8 =>
          if binPathU8.length % 2 ≠ 0 then return none
          else return some { binPath := unitsOf binPathU8, flags }

end Bunx.WindowsShim
