/-
Module: Bunx.Lib.Utf8
Purpose: Texts of characters in UTF-8: the bytes of a character, and the units that UTF-16 has for
  it.
Trusted boundary: none
Main exports: encode, encodeChar_one, encodeChar_two, encodeChar_three, encodeChar_four,
  encodeChar_large, encode_ascii, units
-/
import Mathlib.Data.List.Basic

namespace Bunx.Lib.Utf8

/-- A text in UTF-8. -/
def encode (chars : List Char) : List UInt8 := chars.flatMap String.utf8EncodeChar

/-- How many units a character has in UTF-16. -/
def units (c : Char) : Nat := if c.toNat > 0xFFFF then 2 else 1

theorem encode_nil : encode [] = [] := rfl

theorem encode_cons (c : Char) (chars : List Char) :
    encode (c :: chars) = String.utf8EncodeChar c ++ encode chars :=
  List.flatMap_cons

theorem encode_append (front behind : List Char) :
    encode (front ++ behind) = encode front ++ encode behind :=
  List.flatMap_append

theorem encode_singleton (c : Char) : encode [c] = String.utf8EncodeChar c := by
  rw [encode_cons, encode_nil, List.append_nil]

section Char

variable {c : Char}

theorem char_le (c : Char) : c.toNat ≤ 0x10FFFF := by
  rcases c.valid with low | ⟨_, high⟩
  · exact Nat.le_trans (Nat.le_of_lt low) (by decide)
  · exact Nat.le_of_lt_succ high

theorem encodeChar_one (ascii : c.toNat ≤ 0x7F) :
    String.utf8EncodeChar c = [UInt8.ofNat c.toNat] :=
  if_pos ascii

theorem encodeChar_two (low : 0x7F < c.toNat) (high : c.toNat ≤ 0x7FF) :
    String.utf8EncodeChar c =
      [UInt8.ofNat (c.toNat / 64 + 0xC0), UInt8.ofNat (c.toNat % 64 + 0x80)] := by
  have small : c.toNat / 64 % 0x20 = c.toNat / 64 := Nat.mod_eq_of_lt (by omega)
  have twoBytes : String.utf8EncodeChar c =
      [UInt8.ofNat (c.toNat / 64 % 0x20 + 0xC0), UInt8.ofNat (c.toNat % 64 + 0x80)] :=
    (if_neg (Nat.not_le_of_gt low)).trans (if_pos high)
  rw [twoBytes, small]

theorem encodeChar_three (low : 0x7FF < c.toNat) (high : c.toNat ≤ 0xFFFF) :
    String.utf8EncodeChar c =
      [UInt8.ofNat (c.toNat / 4096 + 0xE0), UInt8.ofNat (c.toNat / 64 % 64 + 0x80),
        UInt8.ofNat (c.toNat % 64 + 0x80)] := by
  have small : c.toNat / 4096 % 0x10 = c.toNat / 4096 := Nat.mod_eq_of_lt (by omega)
  have threeBytes : String.utf8EncodeChar c =
      [UInt8.ofNat (c.toNat / 4096 % 0x10 + 0xE0), UInt8.ofNat (c.toNat / 64 % 64 + 0x80),
        UInt8.ofNat (c.toNat % 64 + 0x80)] :=
    (if_neg (Nat.not_le_of_gt (Nat.lt_trans (by decide) low))).trans
      ((if_neg (Nat.not_le_of_gt low)).trans (if_pos high))
  rw [threeBytes, small]

theorem encodeChar_four (low : 0xFFFF < c.toNat) :
    String.utf8EncodeChar c =
      [UInt8.ofNat (c.toNat / 262144 + 0xF0), UInt8.ofNat (c.toNat / 4096 % 64 + 0x80),
        UInt8.ofNat (c.toNat / 64 % 64 + 0x80), UInt8.ofNat (c.toNat % 64 + 0x80)] := by
  have high := char_le c
  have small : c.toNat / 262144 % 0x08 = c.toNat / 262144 := Nat.mod_eq_of_lt (by omega)
  have fourBytes : String.utf8EncodeChar c =
      [UInt8.ofNat (c.toNat / 262144 % 0x08 + 0xF0), UInt8.ofNat (c.toNat / 4096 % 64 + 0x80),
        UInt8.ofNat (c.toNat / 64 % 64 + 0x80), UInt8.ofNat (c.toNat % 64 + 0x80)] :=
    (if_neg (Nat.not_le_of_gt (Nat.lt_trans (by decide) low))).trans
      ((if_neg (Nat.not_le_of_gt (Nat.lt_trans (by decide) low))).trans
        (if_neg (Nat.not_le_of_gt low)))
  rw [fourBytes, small]

theorem byte_toNat {n : Nat} (small : n < 256) : (UInt8.ofNat n).toNat = n :=
  UInt8.toNat_ofNat_of_lt' small

/-- Every byte of a character that is not ASCII is above ASCII, and the first one is above the
others. -/
theorem encodeChar_large (notAscii : 0x7F < c.toNat) :
    ∃ first rest, String.utf8EncodeChar c = first :: rest ∧ 0xC0 ≤ first.toNat ∧
      ∀ b ∈ rest, 0x80 ≤ b.toNat := by
  have bounds := char_le c
  rcases Nat.lt_or_ge 0x7FF c.toNat with moreThanTwo | two
  · rcases Nat.lt_or_ge 0xFFFF c.toNat with four | three
    · refine ⟨_, _, encodeChar_four four, ?_, ?_⟩
      · rw [byte_toNat (by omega)]
        omega
      · simp only [List.forall_mem_cons, List.not_mem_nil, false_implies, implies_true, and_true]
        rw [byte_toNat (by omega), byte_toNat (by omega), byte_toNat (by omega)]
        omega
    · refine ⟨_, _, encodeChar_three moreThanTwo three, ?_, ?_⟩
      · rw [byte_toNat (by omega)]
        omega
      · simp only [List.forall_mem_cons, List.not_mem_nil, false_implies, implies_true, and_true]
        rw [byte_toNat (by omega), byte_toNat (by omega)]
        omega
  · refine ⟨_, _, encodeChar_two notAscii two, ?_, ?_⟩
    · rw [byte_toNat (by omega)]
      omega
    · simp only [List.forall_mem_cons, List.not_mem_nil, false_implies, implies_true, and_true]
      rw [byte_toNat (by omega)]
      omega

end Char

/-- An ASCII byte of a text is one of its characters. -/
theorem encode_ascii {chars : List Char} {b : UInt8} (member : b ∈ encode chars)
    (ascii : b.toNat < 0x80) : ∃ c ∈ chars, c.toNat = b.toNat := by
  obtain ⟨c, isChar, isByte⟩ := List.mem_flatMap.mp member
  refine ⟨c, isChar, ?_⟩
  rcases Nat.lt_or_ge 0x7F c.toNat with notAscii | isAscii
  · obtain ⟨first, rest, bytes, firstLarge, restLarge⟩ := encodeChar_large notAscii
    rw [bytes] at isByte
    rcases List.mem_cons.mp isByte with rfl | inRest
    · omega
    · have large := restLarge b inRest
      omega
  · rw [encodeChar_one isAscii] at isByte
    rw [List.mem_singleton.mp isByte, byte_toNat (by omega)]

end Bunx.Lib.Utf8
