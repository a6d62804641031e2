/-
Module: Bunx.Semver.SemverString
Purpose: The eight-byte string: held inline, or as an offset and a length into a buffer.
Trusted boundary: a little-endian 64-bit target, built without debug assertions.
Main exports:
  Slice, Pointer, SemverString, SemverString.init, SemverString.slice, canInline, Reads
-/
import Bunx.Lib.Bytes
import Bunx.Semver.Version

namespace Bunx.Semver

open Lib

/-- A slice: the address it begins at and the bytes it holds. -/
structure Slice where
  addr : Nat
  bytes : Bytes
deriving Repr, DecidableEq

/-- `&s[start..stop]`; `none` is the panic. -/
def Slice.range (s : Slice) (start stop : Nat) : Option Slice :=
  if start ≤ stop ∧ stop ≤ s.bytes.length then
    some ⟨s.addr + start, (s.bytes.drop start).take (stop - start)⟩
  else none

/-- An offset and a length of 32 bits each. -/
structure Pointer where
  off : Nat
  len : Nat
deriving Repr, DecidableEq

namespace Pointer

/-- The difference of the two addresses wraps, and both casts keep the low 32 bits. -/
def init (buf in_ : Slice) : Pointer where
  off := (in_.addr + 2 ^ 64 - buf.addr) % 2 ^ 64 % 2 ^ 32
  len := in_.bytes.length % 2 ^ 32

def toBits (p : Pointer) : Nat := leValue (leBytes 4 p.off ++ leBytes 4 p.len)

def fromBits (bits : Nat) : Pointer where
  off := leValue ((leBytes 8 bits).take 4)
  len := leValue ((leBytes 8 bits).drop 4)

end Pointer

/-- `MAX_ADDRESSABLE_SPACE_MASK`. -/
def maxAddressableSpaceMask : Nat := 2 ^ 63 - 1

/-- `MAX_INLINE_LEN`. -/
def maxInlineLen : Nat := 8

/-- `semver_string::String`. -/
structure SemverString where
  bytes : List UInt8
  size : bytes.length = 8
deriving Repr, DecidableEq

namespace SemverString

def byte (s : SemverString) (i : Fin 8) : UInt8 :=
  s.bytes.get (i.cast s.size.symm)

/-- The bytes followed by zeros. -/
def inlined (in_ : Bytes) (short : in_.length ≤ 8) : SemverString where
  bytes := in_ ++ List.replicate (8 - in_.length) 0
  size := by
    rw [List.length_append, List.length_replicate]
    omega

/-- The bits of a pointer with the top bit set. -/
def pointed (p : Pointer) : SemverString where
  bytes := leBytes 8 ((p.toBits &&& maxAddressableSpaceMask) ||| 2 ^ 63)
  size := leBytes_length _ _

def canInline (buf : Bytes) : Bool :=
  if buf.length < maxInlineLen then true
  else if buf.length = maxInlineLen then (buf.getD 7 0) &&& 0x80 = 0
  else false

def init (buf in_ : Slice) : SemverString :=
  if short : in_.bytes.length < maxInlineLen then inlined in_.bytes (Nat.le_of_lt short)
  else if eight : in_.bytes.length = maxInlineLen then
    -- the final bit marks a big string
    if in_.bytes.getD 7 0 ≥ 128 then pointed (Pointer.init buf in_)
    else inlined in_.bytes (Nat.le_of_eq eight)
  else pointed (Pointer.init buf in_)

def ptr (s : SemverString) : Pointer :=
  Pointer.fromBits (leValue s.bytes &&& maxAddressableSpaceMask)

def slice (s : SemverString) (buf : Bytes) : Bytes :=
  if s.byte 7 &&& 128 = 0 then
    -- a string that starts with a zero byte is empty
    if s.byte 0 = 0 then []
    else s.bytes.takeWhile (· ≠ 0)
  else
    let p := s.ptr
    if p.off + p.len ≤ buf.length then (buf.drop p.off).take p.len else []

/-! ### Reading back an inline string -/

theorem byte_eq (s : SemverString) (i : Fin 8) : s.bytes[i.val]? = some (s.byte i) := by
  rw [byte, List.get_eq_getElem, List.getElem?_eq_getElem]
  rfl

theorem low_byte (b : UInt8) : b &&& 128 = 0 ↔ b < 128 := by
  have all : ∀ n : Fin 256, UInt8.ofNat n &&& 128 = 0 ↔ UInt8.ofNat n < 128 := by
    decide +kernel
  have this := all ⟨b.toNat, b.toNat_lt⟩
  rwa [UInt8.ofNat_toNat] at this

theorem canInline_iff (text : Bytes) :
    canInline text = true ↔
      text.length < 8 ∨ text.length = 8 ∧ text.getD 7 0 < 128 := by
  unfold canInline maxInlineLen
  by_cases short : text.length < 8
  · simp [short]
  · by_cases eight : text.length = 8
    · simp [eight, ← low_byte]
    · simp [short, eight]

theorem inlined_last {text : Bytes} (short : text.length ≤ 8)
    (inline : canInline text = true) : (inlined text short).byte 7 &&& 128 = 0 := by
  have last := byte_eq (inlined text short) 7
  rw [low_byte]
  rcases (canInline_iff text).mp inline with small | ⟨eight, low⟩
  · have zero : (inlined text short).bytes[7]? = some 0 := by
      simp only [inlined]
      rw [List.getElem?_append_right (by omega), List.getElem?_replicate_of_lt (by omega)]
    have same : (inlined text short).byte 7 = 0 := Option.some.inj (last.symm.trans zero)
    rw [same]
    decide
  · have same : (inlined text short).bytes[7]? = some (text.getD 7 0) := by
      simp only [inlined]
      rw [List.getElem?_append_left (by omega), List.getD_eq_getElem?_getD,
        List.getElem?_eq_getElem (by omega), Option.getD_some]
    rwa [Option.some.inj (last.symm.trans same)]

theorem inlined_takeWhile {text : Bytes} (noNul : 0 ∉ text) (n : Nat) :
    (text ++ List.replicate n 0).takeWhile (· ≠ 0) = text := by
  rw [List.takeWhile_append_of_pos]
  · cases n with
    | zero => simp
    | succ n => simp [List.replicate_succ]
  · intro b member
    have nonzero : b ≠ 0 := by
      intro zero
      exact noNul (zero ▸ member)
    simpa using nonzero

/-- Inline text without a zero byte reads back whatever the buffer is. -/
theorem slice_inlined {text : Bytes} (short : text.length ≤ 8)
    (inline : canInline text = true) (noNul : 0 ∉ text) (buf : Bytes) :
    (inlined text short).slice buf = text := by
  have first := byte_eq (inlined text short) 0
  rw [slice, if_pos (inlined_last short inline)]
  split
  · rename_i zero
    cases text with
    | nil => rfl
    | cons b rest =>
        have same : b = (inlined (b :: rest) short).byte 0 := Option.some.inj first
        exact absurd (same.trans zero ▸ List.mem_cons_self) noNul
  · exact inlined_takeWhile noNul _

/-! ### Reading back a pointer -/

theorem toBits_eq {p : Pointer} (off : p.off < 2 ^ 32) (len : p.len < 2 ^ 32) :
    p.toBits = p.off + 2 ^ 32 * p.len := by
  have power : 256 ^ (leBytes 4 p.off).length = 2 ^ 32 :=
    (congrArg (256 ^ ·) (leBytes_length 4 p.off)).trans (by decide +kernel)
  rw [Pointer.toBits, leValue_append, leValue_leBytes off, leValue_leBytes len, power]

theorem fromBits_eq {off len : Nat} (offFits : off < 2 ^ 32) (lenFits : len < 2 ^ 32) :
    Pointer.fromBits (off + 2 ^ 32 * len) = ⟨off, len⟩ := by
  have halves : leBytes 8 (off + 2 ^ 32 * len) = leBytes 4 off ++ leBytes 4 len := by
    have low : (off + 2 ^ 32 * len) % 256 ^ 4 = off := by omega
    have high : (off + 2 ^ 32 * len) / 256 ^ 4 = len := by omega
    rw [leBytes_add 4 4, high, ← leBytes_mod 4, low]
  have lengthLow : (leBytes 4 off).length = 4 := leBytes_length 4 off
  unfold Pointer.fromBits
  rw [halves, List.take_left' lengthLow, List.drop_left' lengthLow, leValue_leBytes offFits,
    leValue_leBytes lenFits]

theorem masked_eq (p : Pointer) (off : p.off < 2 ^ 32) (len : p.len < 2 ^ 32) :
    p.toBits &&& maxAddressableSpaceMask = p.off + 2 ^ 32 * (p.len % 2 ^ 31) := by
  rw [maxAddressableSpaceMask, Nat.and_two_pow_sub_one_eq_mod, toBits_eq off len]
  omega

/-- What a big string holds: the tag bit over the masked pointer. -/
theorem packed_eq {masked : Nat} (fits : masked < 2 ^ 63) :
    masked ||| 2 ^ 63 = masked + 2 ^ 63 := by
  have split := Nat.two_pow_add_eq_or_of_lt fits 1
  rw [Nat.mul_one] at split
  rw [Nat.or_comm, ← split, Nat.add_comm]

theorem pointed_value {p : Pointer} (off : p.off < 2 ^ 32) (len : p.len < 2 ^ 32) :
    leValue (pointed p).bytes = p.off + 2 ^ 32 * (p.len % 2 ^ 31) + 2 ^ 63 := by
  have small : p.len % 2 ^ 31 < 2 ^ 31 := Nat.mod_lt _ (by decide)
  simp only [pointed]
  rw [masked_eq p off len, packed_eq (by omega), leValue_leBytes (by omega)]

theorem ptr_pointed {p : Pointer} (off : p.off < 2 ^ 32) (len : p.len < 2 ^ 32) :
    (pointed p).ptr = ⟨p.off, p.len % 2 ^ 31⟩ := by
  have small : p.len % 2 ^ 31 < 2 ^ 31 := Nat.mod_lt _ (by decide)
  have unmasked : leValue (pointed p).bytes &&& maxAddressableSpaceMask
      = p.off + 2 ^ 32 * (p.len % 2 ^ 31) := by
    rw [pointed_value off len, maxAddressableSpaceMask, Nat.and_two_pow_sub_one_eq_mod]
    omega
  rw [ptr, unmasked, fromBits_eq off (by omega)]

theorem pointed_last {p : Pointer} (off : p.off < 2 ^ 32) (len : p.len < 2 ^ 32) :
    (pointed p).byte 7 &&& 128 ≠ 0 := by
  have small : p.len % 2 ^ 31 < 2 ^ 31 := Nat.mod_lt _ (by decide)
  have last : (pointed p).bytes[7]? = _ := leBytes_last 7 _
  rw [masked_eq p off len, packed_eq (by omega)] at last
  have value := Option.some.inj ((byte_eq (pointed p) 7).symm.trans last)
  have top : 128 ≤ (p.off + 2 ^ 32 * (p.len % 2 ^ 31) + 2 ^ 63) / 256 ^ 7 % 256 := by omega
  rw [Ne, low_byte, value, UInt8.lt_iff_toNat_lt, UInt8.toNat_ofNat', Nat.not_lt]
  exact top.trans (Nat.le_of_eq (Nat.mod_eq_of_lt (Nat.mod_lt _ (by decide))).symm)

/-- A pointer reads its range of the buffer; of the length only 31 bits are left. -/
theorem slice_pointed {p : Pointer} (off : p.off < 2 ^ 32) (len : p.len < 2 ^ 32)
    (buf : Bytes) :
    (pointed p).slice buf =
      if p.off + p.len % 2 ^ 31 ≤ buf.length then
        (buf.drop p.off).take (p.len % 2 ^ 31)
      else [] := by
  rw [slice, if_neg (pointed_last off len), ptr_pointed off len]

theorem ptr_len_lt (s : SemverString) : s.ptr.len < 2 ^ 31 := by
  have masked : leValue s.bytes &&& maxAddressableSpaceMask < 2 ^ 63 := by
    rw [maxAddressableSpaceMask, Nat.and_two_pow_sub_one_eq_mod]
    exact Nat.mod_lt _ (by decide)
  have lengthLow := leBytes_length 4 (leValue s.bytes &&& maxAddressableSpaceMask)
  unfold ptr Pointer.fromBits
  rw [leBytes_add 4 4, List.drop_left' lengthLow, leValue_leBytes (by omega)]
  dsimp only
  omega

/-- Whatever a string reads is shorter than `2 ^ 31`. -/
theorem slice_length_lt (s : SemverString) (buf : Bytes) :
    (s.slice buf).length < 2 ^ 31 := by
  unfold slice
  split
  · split
    · simp
    · have inline := List.IsPrefix.length_le (List.takeWhile_prefix (l := s.bytes) (· ≠ 0))
      rw [s.size] at inline
      omega
  · dsimp only
    split
    · have bound := s.ptr_len_lt
      rw [List.length_take]
      omega
    · simp

end SemverString

end Bunx.Semver
