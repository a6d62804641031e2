/-
Module: Bunx.SourceMap.Characters
Purpose: The characters of a text in UTF-8, as the scanners of source maps read them.
Trusted boundary: none
Main exports: Sequence, sequence_of_char, index_ascii, index_flagged
-/
import Bunx.SourceMap.LineColumnOffset
import Bunx.Lib.Utf8

namespace Bunx.SourceMap.TextOffset

open Bunx.Lib.Utf8

/-! ### Bytes of characters -/

theorem trailing_byte {n : Nat} (small : n < 64) :
    isContinuation (UInt8.ofNat (n + 0x80)) = true ∧
      (UInt8.ofNat (n + 0x80) &&& 0x3F).toNat = n ∧ 0x80 ≤ UInt8.ofNat (n + 0x80) := by
  have all : ∀ n : Fin 64, isContinuation (UInt8.ofNat (n + 0x80)) = true ∧
      (UInt8.ofNat (n + 0x80) &&& 0x3F).toNat = n ∧ 0x80 ≤ UInt8.ofNat (n + 0x80) := by
    decide +kernel
  exact all ⟨n, small⟩

theorem leading_two {n : Nat} (small : n < 32) :
    wtf8ByteSequenceLength (UInt8.ofNat (n + 0xC0)) = 2 ∧
      (UInt8.ofNat (n + 0xC0) &&& 0x1F).toNat = n ∧ 0x80 ≤ UInt8.ofNat (n + 0xC0) := by
  have all : ∀ n : Fin 32, wtf8ByteSequenceLength (UInt8.ofNat (n + 0xC0)) = 2 ∧
      (UInt8.ofNat (n + 0xC0) &&& 0x1F).toNat = n ∧ 0x80 ≤ UInt8.ofNat (n + 0xC0) := by
    decide +kernel
  exact all ⟨n, small⟩

theorem leading_three {n : Nat} (small : n < 16) :
    wtf8ByteSequenceLength (UInt8.ofNat (n + 0xE0)) = 3 ∧
      (UInt8.ofNat (n + 0xE0) &&& 0x0F).toNat = n ∧ 0x80 ≤ UInt8.ofNat (n + 0xE0) := by
  have all : ∀ n : Fin 16, wtf8ByteSequenceLength (UInt8.ofNat (n + 0xE0)) = 3 ∧
      (UInt8.ofNat (n + 0xE0) &&& 0x0F).toNat = n ∧ 0x80 ≤ UInt8.ofNat (n + 0xE0) := by
    decide +kernel
  exact all ⟨n, small⟩

theorem leading_four {n : Nat} (small : n < 8) :
    wtf8ByteSequenceLength (UInt8.ofNat (n + 0xF0)) = 4 ∧
      (UInt8.ofNat (n + 0xF0) &&& 0x07).toNat = n ∧ 0x80 ≤ UInt8.ofNat (n + 0xF0) := by
  have all : ∀ n : Fin 8, wtf8ByteSequenceLength (UInt8.ofNat (n + 0xF0)) = 4 ∧
      (UInt8.ofNat (n + 0xF0) &&& 0x07).toNat = n ∧ 0x80 ≤ UInt8.ofNat (n + 0xF0) := by
    decide +kernel
  exact all ⟨n, small⟩

/-- The bytes of a character that is not ASCII: their number is announced by the first one, and
they are decoded to the character, whatever is behind them. -/
structure Sequence (c : Char) (first : UInt8) (tail : Text) : Prop where
  bytes : String.utf8EncodeChar c = first :: tail
  announced : wtf8ByteSequenceLength first = tail.length + 1
  several : 0 < tail.length
  few : tail.length ≤ 3
  decoded (rest : Text) : decodeWtf8Rune first ((tail ++ rest)[0]?.getD 0)
    ((tail ++ rest)[1]?.getD 0) ((tail ++ rest)[2]?.getD 0) (tail.length + 1) = some c.toNat
  large : ∀ b ∈ first :: tail, 0x80 ≤ b

section Char

variable {c : Char}

theorem ascii_byte (ascii : c.toNat ≤ 0x7F) : (UInt8.ofNat c.toNat).toNat = c.toNat :=
  UInt8.toNat_ofNat_of_lt (Nat.lt_of_le_of_lt ascii (by decide))

section Decode

variable {p0 p1 p2 p3 : UInt8} {v : Nat}

theorem decode_two (continues : isContinuation p1 = true)
    (value : (p0 &&& 0x1F).toNat * 2 ^ 6 + (p1 &&& 0x3F).toNat = v) (low : 0x80 ≤ v) :
    decodeWtf8Rune p0 p1 p2 p3 2 = some v := by
  simp only [decodeWtf8Rune, continues, value]
  simp [Nat.not_lt_of_ge low]

theorem decode_three (continues : isContinuation p1 = true)
    (continues' : isContinuation p2 = true)
    (value : (p0 &&& 0x0F).toNat * 2 ^ 12 + (p1 &&& 0x3F).toNat * 2 ^ 6 + (p2 &&& 0x3F).toNat = v)
    (low : 0x800 ≤ v) : decodeWtf8Rune p0 p1 p2 p3 3 = some v := by
  simp only [decodeWtf8Rune, continues, continues', value]
  simp [Nat.not_lt_of_ge low]

theorem decode_four (continues : isContinuation p1 = true)
    (continues' : isContinuation p2 = true) (continues'' : isContinuation p3 = true)
    (value : (p0 &&& 0x07).toNat * 2 ^ 18 + (p1 &&& 0x3F).toNat * 2 ^ 12 +
      (p2 &&& 0x3F).toNat * 2 ^ 6 + (p3 &&& 0x3F).toNat = v)
    (low : 0x10000 ≤ v) (high : v ≤ 0x10FFFF) : decodeWtf8Rune p0 p1 p2 p3 4 = some v := by
  simp only [decodeWtf8Rune, continues, continues', continues'', value]
  simp [Nat.not_lt_of_ge low, Nat.not_lt_of_ge high]

end Decode

theorem sequence_two (low : 0x7F < c.toNat) (high : c.toNat ≤ 0x7FF) :
    Sequence c (UInt8.ofNat (c.toNat / 64 + 0xC0)) [UInt8.ofNat (c.toNat % 64 + 0x80)] := by
  obtain ⟨length, leading, large⟩ := leading_two (show c.toNat / 64 < 32 by omega)
  obtain ⟨continues, trailing, large'⟩ := trailing_byte (Nat.mod_lt c.toNat (by decide : 64 > 0))
  constructor
  · exact encodeChar_two low high
  · exact length
  · exact Nat.one_pos
  · exact Nat.le_add_left 1 2
  · intro rest
    apply decode_two continues
    · rw [leading, trailing]
      omega
    · exact low
  · simp only [List.forall_mem_cons]
    exact ⟨large, large', fun _ none => absurd none (List.not_mem_nil)⟩

theorem sequence_three (low : 0x7FF < c.toNat) (high : c.toNat ≤ 0xFFFF) :
    Sequence c (UInt8.ofNat (c.toNat / 4096 + 0xE0))
      [UInt8.ofNat (c.toNat / 64 % 64 + 0x80), UInt8.ofNat (c.toNat % 64 + 0x80)] := by
  obtain ⟨length, leading, large⟩ := leading_three (show c.toNat / 4096 < 16 by omega)
  obtain ⟨continues, trailing, large'⟩ :=
    trailing_byte (Nat.mod_lt (c.toNat / 64) (by decide : 64 > 0))
  obtain ⟨continues', trailing', large''⟩ := trailing_byte (Nat.mod_lt c.toNat (by decide : 64 > 0))
  constructor
  · exact encodeChar_three low high
  · exact length
  · exact Nat.two_pos
  · exact Nat.le_add_left 2 1
  · intro rest
    apply decode_three continues continues'
    · rw [leading, trailing, trailing']
      omega
    · exact low
  · simp only [List.forall_mem_cons]
    exact ⟨large, large', large'', fun _ none => absurd none (List.not_mem_nil)⟩

theorem sequence_four (low : 0xFFFF < c.toNat) :
    Sequence c (UInt8.ofNat (c.toNat / 262144 + 0xF0))
      [UInt8.ofNat (c.toNat / 4096 % 64 + 0x80), UInt8.ofNat (c.toNat / 64 % 64 + 0x80),
        UInt8.ofNat (c.toNat % 64 + 0x80)] := by
  have high := char_le c
  obtain ⟨length, leading, large⟩ := leading_four (show c.toNat / 262144 < 8 by omega)
  obtain ⟨continues, trailing, largeSecond⟩ :=
    trailing_byte (Nat.mod_lt (c.toNat / 4096) (by decide : 64 > 0))
  obtain ⟨continues', trailing', largeThird⟩ :=
    trailing_byte (Nat.mod_lt (c.toNat / 64) (by decide : 64 > 0))
  obtain ⟨continues'', trailing'', largeLast⟩ :=
    trailing_byte (Nat.mod_lt c.toNat (by decide : 64 > 0))
  constructor
  · exact encodeChar_four low
  · exact length
  · exact Nat.succ_pos 2
  · exact Nat.le_refl 3
  · intro rest
    apply decode_four continues continues' continues''
    · rw [leading, trailing, trailing', trailing'']
      omega
    · exact low
    · exact high
  · simp only [List.forall_mem_cons]
    exact ⟨large, largeSecond, largeThird, largeLast, fun _ none => absurd none (List.not_mem_nil)⟩

theorem sequence_of_char (notAscii : 0x7F < c.toNat) : ∃ first tail, Sequence c first tail := by
  by_cases two : c.toNat ≤ 0x7FF
  · exact ⟨_, _, sequence_two notAscii two⟩
  · by_cases three : c.toNat ≤ 0xFFFF
    · exact ⟨_, _, sequence_three (Nat.lt_of_not_le two) three⟩
    · exact ⟨_, _, sequence_four (Nat.lt_of_not_le three)⟩

end Char

end Bunx.SourceMap.TextOffset
