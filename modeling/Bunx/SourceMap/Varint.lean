/-
Module: Bunx.SourceMap.Varint
Purpose: 32-bit integer arithmetic of the source-map code, and the zig-zag
  varints of InternalSourceMap.
Trusted boundary: none
Main exports:
  wrap, InI32, zigzagEncode, zigzagDecode, writeVarint, readVarint,
  readVarint_writeVarint
-/
import Mathlib.Algebra.Ring.Int.Defs
import Mathlib.Algebra.Ring.Nat
import Mathlib.Data.Nat.Bitwise
import Mathlib.Tactic.Ring
import Bunx.Lib.Bytes

namespace Bunx.SourceMap

open Lib

/-! ### `i32` -/

/-- Release builds wrap on overflow. -/
def wrap (v : Int) : Int := v.bmod (2 ^ 32)

def i32Max : Int := 2 ^ 31 - 1

/-- The values of an `i32`. -/
def InI32 (v : Int) : Prop := -(2 ^ 31) ≤ v ∧ v < 2 ^ 31

/-- A field of a mapping: a non-negative `i32`. -/
def IsField (v : Int) : Prop := 0 ≤ v ∧ v < 2 ^ 31

theorem IsField.inI32 {v : Int} (isField : IsField v) : InI32 v := by
  unfold IsField at isField
  unfold InI32
  omega

theorem wrap_of_inI32 {v : Int} (inside : InI32 v) : wrap v = v := by
  unfold InI32 at inside
  unfold wrap
  rw [Int.bmod_def]
  split <;> omega

/-- Differences of fields do not overflow. -/
theorem IsField.sub {v w : Int} (vField : IsField v) (wField : IsField w) :
    InI32 (v - w) := by
  unfold IsField at vField wField
  unfold InI32
  omega

/-- `as u32`. -/
def asU32 (v : Int) : Nat := (v % 2 ^ 32).toNat

/-- `as i32`. -/
def asI32 (v : Nat) : Int := wrap v

/-! ### Zig-zag -/

/-- `((value << 1) ^ (value >> 31)) as u32`. -/
def zigzagEncode (value : Int) : Nat :=
  let v := BitVec.ofInt 32 value
  ((v <<< 1) ^^^ v.sshiftRight 31).toNat

/-- `(value >> 1) as i32 ^ (-((value & 1) as i32))`. -/
def zigzagDecode (value : Nat) : Int :=
  let v := BitVec.ofNat 32 value
  ((v >>> 1) ^^^ -(v &&& 1#32)).toInt

theorem zigzagEncode_nonneg {v : Int} (inside : InI32 v) (nonneg : 0 ≤ v) :
    zigzagEncode v = (2 * v).toNat := by
  unfold InI32 at inside
  have value : (BitVec.ofInt 32 v).toNat = v.toNat := by
    rw [BitVec.toNat_ofInt]
    omega
  have sign : (BitVec.ofInt 32 v).sshiftRight 31 = 0#32 := by
    have positive : (BitVec.ofInt 32 v).msb = false := by
      rw [BitVec.msb_eq_false_iff_two_mul_lt, value]
      omega
    rw [BitVec.sshiftRight_eq_of_msb_false positive]
    apply BitVec.eq_of_toNat_eq
    rw [BitVec.toNat_ushiftRight, value, Nat.shiftRight_eq_div_pow]
    simp
    omega
  simp only [zigzagEncode, sign, BitVec.xor_zero, BitVec.toNat_shiftLeft, value,
    Nat.shiftLeft_eq]
  omega

theorem zigzagEncode_neg {v : Int} (inside : InI32 v) (negative : v < 0) :
    zigzagEncode v = (-2 * v - 1).toNat := by
  unfold InI32 at inside
  have value : (BitVec.ofInt 32 v).toNat = (2 ^ 32 + v).toNat := by
    rw [BitVec.toNat_ofInt]
    omega
  have sign : (BitVec.ofInt 32 v).sshiftRight 31 = BitVec.allOnes 32 := by
    have isNegative : (BitVec.ofInt 32 v).msb = true := by
      rw [BitVec.msb_eq_true_iff_two_mul_ge, value]
      omega
    have shifted : (~~~BitVec.ofInt 32 v) >>> 31 = 0#32 := by
      apply BitVec.eq_of_toNat_eq
      rw [BitVec.toNat_ushiftRight, BitVec.toNat_not, value,
        Nat.shiftRight_eq_div_pow]
      simp
      omega
    rw [BitVec.sshiftRight_eq_of_msb_true isNegative, shifted, BitVec.not_zero]
  simp only [zigzagEncode, sign, BitVec.xor_allOnes, BitVec.toNat_not,
    BitVec.toNat_shiftLeft, value, Nat.shiftLeft_eq]
  omega

theorem zigzagEncode_lt (v : Int) : zigzagEncode v < 2 ^ 32 := BitVec.isLt _

theorem zigzagDecode_even {n : Nat} (fits : n < 2 ^ 32) (even : n % 2 = 0) :
    zigzagDecode n = (n / 2 : Nat) := by
  have low : BitVec.ofNat 32 n &&& 1#32 = 0#32 := by
    apply BitVec.eq_of_toNat_eq
    rw [BitVec.toNat_and, BitVec.toNat_ofNat, Nat.mod_eq_of_lt fits]
    simp [Nat.and_one_is_mod, even]
  have half : (BitVec.ofNat 32 n >>> 1).toNat = n / 2 := by
    rw [BitVec.toNat_ushiftRight, BitVec.toNat_ofNat, Nat.mod_eq_of_lt fits,
      Nat.shiftRight_eq_div_pow]
  simp only [zigzagDecode, low, BitVec.neg_zero, BitVec.xor_zero]
  rw [BitVec.toInt_eq_toNat_of_lt (by rw [half]; omega), half]

theorem zigzagDecode_odd {n : Nat} (fits : n < 2 ^ 32) (odd : n % 2 = 1) :
    zigzagDecode n = -(n / 2 : Nat) - 1 := by
  have low : -(BitVec.ofNat 32 n &&& 1#32) = BitVec.allOnes 32 := by
    have one : BitVec.ofNat 32 n &&& 1#32 = 1#32 := by
      apply BitVec.eq_of_toNat_eq
      rw [BitVec.toNat_and, BitVec.toNat_ofNat, Nat.mod_eq_of_lt fits]
      simp [Nat.and_one_is_mod, odd]
    rw [one]
    rfl
  have half : (BitVec.ofNat 32 n >>> 1).toNat = n / 2 := by
    rw [BitVec.toNat_ushiftRight, BitVec.toNat_ofNat, Nat.mod_eq_of_lt fits,
      Nat.shiftRight_eq_div_pow]
  simp only [zigzagDecode, low, BitVec.xor_allOnes]
  rw [BitVec.toInt_not, half, Int.bmod_def]
  omega

/-- Decoding undoes encoding on every `i32`. -/
theorem zigzagDecode_zigzagEncode {v : Int} (inside : InI32 v) :
    zigzagDecode (zigzagEncode v) = v := by
  have fits := zigzagEncode_lt v
  by_cases nonneg : 0 ≤ v
  · have code := zigzagEncode_nonneg inside nonneg
    rw [zigzagDecode_even fits (by omega), code]
    omega
  · have code := zigzagEncode_neg inside (by omega)
    rw [zigzagDecode_odd fits (by omega), code]
    omega

/-! ### Varints -/

/-- The bytes `write_varint` emits for `v`, seven bits each: at most
`MAX_VARINT_LEN` of them for a `u32`. -/
def varintBytes : Nat → Nat → List UInt8
  | 0, _ => []
  | fuel + 1, v =>
      let byte := v % 0x80
      if v / 0x80 ≠ 0 then UInt8.ofNat (byte + 0x80) :: varintBytes fuel (v / 0x80)
      else [UInt8.ofNat byte]

def maxVarintLen : Nat := 5

def writeVarint (signed : Int) : List UInt8 :=
  varintBytes maxVarintLen (zigzagEncode signed)

/-- The loop of `read_varint` after a first byte with its high bit set.  It stops
at the end of the bytes and after the shift 28; `fuel` bounds the turns. -/
def readVarintLoop (bytes : List UInt8) : Nat → Nat → Nat → Nat → Nat × Nat
  | 0, i, result, _ => (result, i)
  | fuel + 1, i, result, shift =>
      if bytes.length ≤ i ∨ 28 < shift then (result, i)
      else
        let byte := (bytes.getD i 0).toNat
        let result := result ||| ((byte % 0x80) <<< shift) % 2 ^ 32
        if byte / 0x80 = 0 then (result, i + 1)
        else readVarintLoop bytes fuel (i + 1) result (shift + 7)

/-- The decoded value and the position behind it; `none` is the panic on a first
byte past the end. -/
def readVarint (bytes : List UInt8) (pos : Nat) : Option (Int × Nat) :=
  match bytes[pos]? with
  | none => none
  | some first =>
      if first.toNat < 0x80 then some (zigzagDecode first.toNat, pos + 1)
      else
        let (result, i) := readVarintLoop bytes maxVarintLen (pos + 1)
          (first.toNat % 0x80) 7
        some (zigzagDecode result, i)

theorem varintBytes_length_le (fuel v : Nat) :
    (varintBytes fuel v).length ≤ fuel := by
  induction fuel generalizing v with
  | zero => simp [varintBytes]
  | succ fuel ih =>
      simp only [varintBytes]
      split
      · simpa using ih (v / 0x80)
      · simp

theorem writeVarint_length_le (v : Int) : (writeVarint v).length ≤ 5 :=
  varintBytes_length_le _ _

theorem byte_toNat {n : Nat} (fits : n < 256) : (UInt8.ofNat n).toNat = n := by
  rw [UInt8.toNat_ofNat']
  exact Nat.mod_eq_of_lt fits

/-- A payload is put above the bits read so far. -/
theorem or_payload {result payload shift : Nat} (low : result < 2 ^ shift)
    (fits : result + payload * 2 ^ shift < 2 ^ 32) :
    result ||| (payload <<< shift) % 2 ^ 32 = result + payload * 2 ^ shift := by
  rw [Nat.shiftLeft_eq, Nat.mod_eq_of_lt (by omega), Nat.or_comm, Nat.mul_comm,
    ← Nat.two_pow_add_eq_or_of_lt low]
  omega

/-- The loop reads back what is left of a varint. -/
theorem readVarintLoop_varintBytes {bytes : List UInt8} {fuel readFuel : Nat}
    (enough : fuel ≤ readFuel) {i u result shift : Nat} (positive : 0 < fuel)
    (isShift : shift + 7 * fuel = 35) (small : u < 128 ^ fuel)
    (here : At bytes i (varintBytes fuel u)) (low : result < 2 ^ shift)
    (fits : result + u * 2 ^ shift < 2 ^ 32) :
    readVarintLoop bytes readFuel i result shift =
      (result + u * 2 ^ shift, i + (varintBytes fuel u).length) := by
  induction fuel generalizing readFuel i u result shift with
  | zero => cases positive
  | succ fuel ih =>
      obtain ⟨readFuel, rfl⟩ : ∃ n, readFuel = n + 1 := ⟨readFuel - 1, by omega⟩
      simp only [varintBytes] at here ⊢
      by_cases more : u / 0x80 ≠ 0
      · rw [if_pos more] at here ⊢
        have value := here.head
        have inside : i < bytes.length := (List.getElem?_eq_some_iff.mp value).1
        have byte := byte_toNat (n := u % 0x80 + 0x80) (by omega)
        have payload : (u % 0x80 + 0x80) % 0x80 = u % 0x80 := by omega
        have power : 2 ^ (shift + 7) = 2 ^ shift * 128 := by
          rw [Nat.pow_add]
        have total : result + u % 0x80 * 2 ^ shift + u / 0x80 * 2 ^ (shift + 7) =
            result + u * 2 ^ shift := by
          have split := Nat.div_add_mod u 0x80
          calc result + u % 0x80 * 2 ^ shift + u / 0x80 * 2 ^ (shift + 7)
              = result + (0x80 * (u / 0x80) + u % 0x80) * 2 ^ shift := by
                rw [power]
                ring
            _ = result + u * 2 ^ shift := by rw [split]
        have below : result + u % 0x80 * 2 ^ shift < 2 ^ 32 := by
          have := Nat.zero_le (u / 0x80 * 2 ^ (shift + 7))
          omega
        have fuelPositive : 0 < fuel := by
          rcases Nat.eq_zero_or_pos fuel with rfl | isPositive
          · simp only [Nat.zero_add, Nat.pow_one] at small
            omega
          · exact isPositive
        rw [readVarintLoop, if_neg (by omega), List.getD_eq_getElem?_getD, value]
        simp only [Option.getD_some, byte, payload, or_payload low below]
        rw [if_neg (by omega), ih (by omega) fuelPositive (by omega)
          ?_ here.tail ?_ (by omega), total]
        · simp only [List.length_cons, Prod.mk.injEq, true_and]
          omega
        · rw [Nat.div_lt_iff_lt_mul (by decide), ← Nat.pow_succ]
          exact small
        · have digit : u % 0x80 ≤ 127 := by omega
          have scaled := Nat.mul_le_mul_right (2 ^ shift) digit
          rw [power]
          omega
      · rw [if_neg more] at here ⊢
        have value := here.head
        have inside : i < bytes.length := (List.getElem?_eq_some_iff.mp value).1
        have byte := byte_toNat (n := u % 0x80) (by omega)
        have whole : u % 0x80 % 0x80 = u := by omega
        rw [readVarintLoop, if_neg (by omega), List.getD_eq_getElem?_getD, value]
        simp only [Option.getD_some, byte, whole, or_payload low fits]
        rw [if_pos (by omega)]
        rfl

/-- Reading a varint undoes writing it, wherever it stands. -/
theorem readVarint_writeVarint {bytes : List UInt8} {pos : Nat} {v : Int}
    (inside : InI32 v) (here : At bytes pos (writeVarint v)) :
    readVarint bytes pos = some (v, pos + (writeVarint v).length) := by
  have decoded := zigzagDecode_zigzagEncode inside
  have fits := zigzagEncode_lt v
  simp only [writeVarint, maxVarintLen] at here ⊢
  generalize zigzagEncode v = u at *
  rw [varintBytes] at here ⊢
  by_cases more : u / 0x80 ≠ 0
  · simp only [if_pos more] at here ⊢
    have byte := byte_toNat (n := u % 0x80 + 0x80) (by omega)
    have payload : (u % 0x80 + 0x80) % 0x80 = u % 0x80 := by omega
    have small : u / 0x80 < 128 ^ 4 := by omega
    have low : u % 0x80 < 2 ^ 7 := by omega
    have whole : u % 0x80 + u / 0x80 * 2 ^ 7 < 2 ^ 32 := by omega
    have rest := readVarintLoop_varintBytes (show 4 ≤ 5 by decide) (by decide) rfl
      small here.tail low whole
    rw [readVarint, here.head]
    simp only [byte, payload, maxVarintLen, rest]
    rw [if_neg (by omega), show u % 0x80 + u / 0x80 * 2 ^ 7 = u by omega, decoded]
    simp only [List.length_cons, Option.some.injEq, Prod.mk.injEq, true_and]
    omega
  · simp only [if_neg more] at here ⊢
    have byte := byte_toNat (n := u % 0x80) (by omega)
    rw [readVarint, here.head]
    simp only [byte]
    rw [if_pos (by omega), show u % 0x80 = u by omega, decoded]
    rfl

end Bunx.SourceMap
