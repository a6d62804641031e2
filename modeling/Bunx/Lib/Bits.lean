/-
Module: Bunx.Lib.Bits
Purpose: Bit masks of eight bits a byte, as written bit by bit into a memory and
  as read back from a list of bytes.
Trusted boundary: none
Main exports: bitAt, maskBytes, bitAt_maskBytes, Mem.orBit, Mem.bit, Mem.holds_mask
-/
import Mathlib.Data.Nat.Bitwise
import Mathlib.Data.Nat.Init
import Bunx.Lib.Bytes

namespace Bunx.Lib

/-- Bit `k` of the mask that begins at `off`; `none` past the end. -/
def bitAt (bytes : List UInt8) (off k : Nat) : Option Bool :=
  (bytes[off + k / 8]?).map fun b => b.toNat.testBit (k % 8)

/-- The byte of the bits from `8 * j` on, lowest bit first. -/
def maskByte (bits : Nat → Bool) (j : Nat) : UInt8 :=
  UInt8.ofNat (Nat.ofBits fun i : Fin 8 => bits (8 * j + i))

/-- The first `n` bytes of a mask. -/
def maskBytes (n : Nat) (bits : Nat → Bool) : List UInt8 :=
  (List.range n).map (maskByte bits)

@[simp] theorem maskBytes_length (n : Nat) (bits : Nat → Bool) :
    (maskBytes n bits).length = n := by
  simp [maskBytes]

theorem maskByte_testBit (bits : Nat → Bool) (j : Nat) {i : Nat} (small : i < 8) :
    (maskByte bits j).toNat.testBit i = bits (8 * j + i) := by
  have fits := Nat.ofBits_lt_two_pow fun i : Fin 8 => bits (8 * j + i)
  rw [maskByte, UInt8.toNat_ofNat', Nat.mod_eq_of_lt fits]
  exact Nat.testBit_ofBits_lt _ i small

/-- A byte is known by its eight bits. -/
theorem eq_maskByte {bits : Nat → Bool} {j : Nat} {b : UInt8}
    (same : ∀ i, i < 8 → b.toNat.testBit i = bits (8 * j + i)) :
    b = maskByte bits j := by
  apply UInt8.toNat_inj.mp
  apply Nat.eq_of_testBit_eq
  intro i
  by_cases small : i < 8
  · rw [same i small, maskByte_testBit bits j small]
  · have high : 2 ^ 8 ≤ 2 ^ i := Nat.pow_le_pow_right (by decide) (by omega)
    rw [Nat.testBit_lt_two_pow (Nat.lt_of_lt_of_le b.toNat_lt high),
      Nat.testBit_lt_two_pow (Nat.lt_of_lt_of_le (UInt8.toNat_lt _) high)]

/-- A mask in the bytes answers for its bits. -/
theorem bitAt_maskBytes {bytes : List UInt8} {off n k : Nat} {bits : Nat → Bool}
    (here : At bytes off (maskBytes n bits)) (inside : k < 8 * n) :
    bitAt bytes off k = some (bits k) := by
  have byteInside : k / 8 < n := by omega
  have byte : (maskBytes n bits)[k / 8]? = some (maskByte bits (k / 8)) := by
    simp [maskBytes, byteInside]
  rw [bitAt, here.getElem? byte, Option.map_some, maskByte_testBit _ _ (by omega),
    Nat.div_add_mod]

namespace Mem

/-- `mask[k >> 3] |= 1 << (k & 7)`. -/
def orBit (m : Mem) (off k : Nat) : Mem := fun i =>
  if i = off + k / 8 then m i ||| UInt8.ofNat (2 ^ (k % 8)) else m i

/-- The bit `k` of a mask in memory. -/
def bit (m : Mem) (off k : Nat) : Bool := (m (off + k / 8)).toNat.testBit (k % 8)

variable {m : Mem} {off k : Nat}

theorem orBit_of_outside {i : Nat} (outside : i < off ∨ off + k / 8 < i) :
    m.orBit off k i = m i := by
  unfold orBit
  rw [if_neg (by omega)]

/-- Setting a bit sets that bit and no other. -/
theorem bit_orBit (k' : Nat) :
    (m.orBit off k).bit off k' = (m.bit off k' || decide (k = k')) := by
  unfold bit orBit
  by_cases sameByte : k' / 8 = k / 8
  · have power : (UInt8.ofNat (2 ^ (k % 8))).toNat = 2 ^ (k % 8) := by
      rw [UInt8.toNat_ofNat']
      apply Nat.mod_eq_of_lt
      exact Nat.pow_lt_pow_right (by decide) (Nat.mod_lt _ (by decide))
    rw [if_pos (by omega), UInt8.toNat_or, Nat.testBit_or, power, Nat.testBit_two_pow]
    congr 1
    apply decide_eq_decide.mpr
    omega
  · rw [if_neg (by omega)]
    have other : k ≠ k' := by
      intro same
      exact sameByte (by rw [same])
    rw [decide_eq_false other, Bool.or_false]

/-- A mask survives what happens outside its eight bytes. -/
theorem bit_frame {m' : Mem} (same : m' (off + k / 8) = m (off + k / 8)) :
    m'.bit off k = m.bit off k := by
  rw [bit, bit, same]

/-- A memory with the bits of a mask holds the mask. -/
theorem holds_mask {n : Nat} {bits : Nat → Bool}
    (same : ∀ k, k < 8 * n → m.bit off k = bits k) :
    m.Holds off (maskBytes n bits) := by
  intro j b isByte
  have inside : j < n := by
    have := (List.getElem?_eq_some_iff.mp isByte).1
    simpa using this
  have value : (maskBytes n bits)[j]? = some (maskByte bits j) := by
    simp [maskBytes, inside]
  rw [value] at isByte
  cases isByte
  apply eq_maskByte
  intro i small
  have this := same (8 * j + i) (by omega)
  rw [bit, show (8 * j + i) / 8 = j by omega, show (8 * j + i) % 8 = i by omega] at this
  exact this

end Mem

end Bunx.Lib
