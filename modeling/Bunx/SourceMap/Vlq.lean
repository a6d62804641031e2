/-
Module: Bunx.SourceMap.Vlq
Purpose: The base-64 variable-length quantities of a mappings text, and that reading undoes
  writing.
Trusted boundary: a decoder is called at a position inside the text or at its end
Main exports: Vlq.encode, Vlq.decode, Vlq.decode_encode, Vlq.encode_free
-/
import Bunx.SourceMap.Varint

namespace Bunx.SourceMap.Vlq

abbrev Bytes := List UInt8

def base64 : Bytes :=
  "ABCDEFGHIJKLMNOPQRSTUVWXYZabcdefghijklmnopqrstuvwxyz0123456789+/".toList.map
    fun c => UInt8.ofNat c.toNat

def u7Max : Nat := 127

/-- `BASE64_LUT`: the value of a character, 127 where it is none of the alphabet. -/
def base64Lut (c : Nat) : Nat := (base64.idxOf? (UInt8.ofNat c)).getD u7Max

def vlqMaxInBytes : Nat := 7

/-! ### Encoding -/

/-- The digits of a quantity, the lowest first, each but the last one with the continuation bit.
Nothing where the turns are used up. -/
def vlqDigits : Nat → Nat → Option (List Nat)
  | 0, _ => none
  | fuel + 1, vlq =>
      let digit := vlq % 32
      let vlq := vlq / 32
      if vlq = 0 then some [digit]
      else (vlqDigits fuel vlq).map ((digit + 32) :: ·)

/-- Sign and magnitude; the magnitude of `i32::MIN` does not fit and is cut to 0. -/
def signMagnitude (value : Int) : Nat :=
  if 0 ≤ value then 2 * value.toNat % 2 ^ 32 else 2 * value.natAbs % 2 ^ 32 + 1

/-- `encode_slow_path`; the lookup table of `encode` holds its values. -/
def encode (value : Int) : Bytes :=
  ((vlqDigits vlqMaxInBytes (signMagnitude value)).getD []).map fun d => base64.getD d 0

/-! ### Decoding -/

structure VlqResult where
  value : Int
  start : Nat
deriving Repr, DecidableEq

def decodeLoop (start i shift vlq : Nat) : Bytes → VlqResult
  | [] => { value := 0, start }
  | c :: rest =>
      let index := base64Lut (c.toNat % 0x80)
      let vlq := vlq ||| (index % 32) <<< (shift % 32) % 2 ^ 32
      if index / 32 % 2 = 0 then
        { value := if vlq % 2 = 0 then (vlq / 2 : Nat) else -(vlq / 2 : Nat)
          start := start + i + 1 }
      else decodeLoop start (i + 1) (shift + 5) vlq rest

/-- `decode`, and `decode_assume_valid`, which only asserts more. Where no quantity ends within
eight characters, the position stays. -/
def decode (encoded : Bytes) (start : Nat) : VlqResult :=
  decodeLoop start 0 0 0 ((encoded.drop start).take (vlqMaxInBytes + 1))

/-! ### Reading what was written -/

theorem base64Lut_base64 : ∀ d < 64, base64Lut ((base64.getD d 0).toNat % 0x80) = d := by
  decide +kernel

theorem vlqDigits_some {fuel vlq : Nat} (fits : vlq < 32 ^ fuel) (positive : 0 < fuel) :
    ∃ digits, vlqDigits fuel vlq = some digits ∧ digits.length ≤ fuel ∧ digits ≠ [] ∧
      ∀ d ∈ digits, d < 64 := by
  induction fuel generalizing vlq with
  | zero => exact absurd positive (Nat.lt_irrefl 0)
  | succ fuel ih =>
      rw [vlqDigits]
      split
      · refine ⟨_, rfl, by simp, List.cons_ne_nil _ _, ?_⟩
        intro d member
        rw [List.mem_singleton.mp member]
        omega
      · next more =>
        have restFits : vlq / 32 < 32 ^ fuel := by
          rw [Nat.pow_succ] at fits
          omega
        have fuelPositive : 0 < fuel := by
          rcases Nat.eq_zero_or_pos fuel with rfl | isPositive
          · omega
          · exact isPositive
        obtain ⟨digits, isDigits, short, _, small⟩ := ih restFits fuelPositive
        rw [isDigits]
        refine ⟨_, rfl, by simpa using short, List.cons_ne_nil _ _, ?_⟩
        intro d member
        rcases List.mem_cons.mp member with rfl | inRest
        · omega
        · exact small d inRest

/-- A digit is put above what has been read. -/
theorem or_digit {i acc digit : Nat} (read : acc < 2 ^ (5 * i)) (early : i ≤ 6)
    (fits : digit * 2 ^ (5 * i) < 2 ^ 32) :
    acc ||| digit <<< (5 * i % 32) % 2 ^ 32 = acc + digit * 2 ^ (5 * i) := by
  have inRange : 5 * i % 32 = 5 * i := Nat.mod_eq_of_lt (by omega)
  rw [inRange, Nat.shiftLeft_eq, Nat.mod_eq_of_lt fits, Nat.or_comm, Nat.mul_comm,
    ← Nat.two_pow_add_eq_or_of_lt read, Nat.add_comm]

/-- Reading adds the digits that are left to what has been read. -/
theorem decodeLoop_digits {start i acc fuel vlq : Nat} {digits : List Nat} {rest : Bytes}
    (isDigits : vlqDigits fuel vlq = some digits) (read : acc < 2 ^ (5 * i))
    (fits : acc + vlq * 2 ^ (5 * i) < 2 ^ 32) (early : i + digits.length ≤ 7) :
    decodeLoop start i (5 * i) acc (digits.map (fun d => base64.getD d 0) ++ rest) =
      { value :=
          if (acc + vlq * 2 ^ (5 * i)) % 2 = 0 then ((acc + vlq * 2 ^ (5 * i)) / 2 : Nat)
          else -((acc + vlq * 2 ^ (5 * i)) / 2 : Nat)
        start := start + i + digits.length } := by
  induction fuel generalizing i acc vlq digits with
  | zero => cases isDigits
  | succ fuel ih =>
      have lowFits : vlq % 32 * 2 ^ (5 * i) < 2 ^ 32 :=
        Nat.lt_of_le_of_lt (Nat.mul_le_mul_right _ (Nat.mod_le vlq 32)) (by omega)
      rw [vlqDigits] at isDigits
      split at isDigits
      · next isLast =>
        cases isDigits
        have isDigit : base64Lut ((base64.getD (vlq % 32) 0).toNat % 0x80) = vlq % 32 :=
          base64Lut_base64 _ (by omega)
        have whole : vlq % 32 = vlq := by omega
        rw [List.map_singleton, List.singleton_append, decodeLoop, isDigit, Nat.mod_mod, or_digit read (Nat.le_of_lt_succ early) lowFits, if_pos (by omega),
          whole, List.length_singleton]
      · next more =>
        obtain ⟨behind, isBehind, rfl⟩ := Option.map_eq_some_iff.mp isDigits
        have isDigit : base64Lut ((base64.getD (vlq % 32 + 32) 0).toNat % 0x80) = vlq % 32 + 32 :=
          base64Lut_base64 _ (by omega)
        have lowBits : (vlq % 32 + 32) % 32 = vlq % 32 := by omega
        have power : 2 ^ (5 * (i + 1)) = 32 * 2 ^ (5 * i) := by
          rw [Nat.mul_add, Nat.pow_add, Nat.mul_comm]
        have sum : acc + vlq % 32 * 2 ^ (5 * i) + vlq / 32 * 2 ^ (5 * (i + 1)) =
            acc + vlq * 2 ^ (5 * i) := by
          rw [power, Nat.add_assoc, ← Nat.mul_assoc, ← Nat.add_mul, Nat.mul_comm (vlq / 32),
            Nat.mod_add_div]
        rw [List.length_cons] at early
        have readMore : acc + vlq % 32 * 2 ^ (5 * i) < 2 ^ (5 * (i + 1)) := by
          have below : vlq % 32 * 2 ^ (5 * i) ≤ 31 * 2 ^ (5 * i) :=
            Nat.mul_le_mul_right _ (by omega)
          omega
        rw [List.map_cons, List.cons_append, decodeLoop, isDigit, lowBits, or_digit read (by omega) lowFits, if_neg (by omega), ← Nat.mul_succ,
          ih isBehind readMore (by rw [sum]; exact fits) (by omega), sum,
          List.length_cons]
        congr 1
        omega

theorem signMagnitude_lt (value : Int) : signMagnitude value < 2 ^ 32 := by
  rw [signMagnitude]
  split
  · omega
  · omega

theorem encode_digits (value : Int) :
    ∃ digits, vlqDigits vlqMaxInBytes (signMagnitude value) = some digits ∧
      digits.length ≤ 7 ∧ digits ≠ [] ∧ (∀ d ∈ digits, d < 64) ∧
      encode value = digits.map fun d => base64.getD d 0 := by
  have fits : signMagnitude value < 32 ^ vlqMaxInBytes :=
    Nat.lt_of_lt_of_le (signMagnitude_lt value) (by decide)
  obtain ⟨digits, isDigits, short, nonempty, small⟩ := vlqDigits_some fits (by decide)
  refine ⟨digits, isDigits, short, nonempty, small, ?_⟩
  rw [encode, isDigits, Option.getD_some]

theorem encode_ne_nil (value : Int) : encode value ≠ [] := by
  obtain ⟨digits, _, _, nonempty, _, isText⟩ := encode_digits value
  rw [isText]
  exact mt List.map_eq_nil_iff.mp nonempty

theorem base64_free : ∀ d < 64, base64.getD d 0 ≠ 0x2c ∧ base64.getD d 0 ≠ 0x3b := by
  decide +kernel

/-- A quantity holds neither a comma nor a semicolon. -/
theorem encode_free (value : Int) : ∀ c ∈ encode value, c ≠ 0x2c ∧ c ≠ 0x3b := by
  obtain ⟨digits, _, _, _, small, isText⟩ := encode_digits value
  intro c member
  rw [isText] at member
  obtain ⟨d, isDigit, rfl⟩ := List.mem_map.mp member
  exact base64_free d (small d isDigit)

/-- Every 32-bit value but the smallest is read back, and reading stops behind it. -/
theorem decode_encode {value : Int} (inside : InI32 value) (notMin : value ≠ -(2 ^ 31))
    (front rest : Bytes) :
    decode (front ++ (encode value ++ rest)) front.length =
      { value, start := front.length + (encode value).length } := by
  obtain ⟨digits, isDigits, short, _, _, isText⟩ := encode_digits value
  have magnitude := signMagnitude_lt value
  have shortText : (digits.map fun d => base64.getD d 0).length ≤ vlqMaxInBytes + 1 := by
    rw [List.length_map, vlqMaxInBytes]
    omega
  have isRead := @decodeLoop_digits front.length 0 0 vlqMaxInBytes (signMagnitude value) digits
    (rest.take (vlqMaxInBytes + 1 - (digits.map fun d => base64.getD d 0).length)) isDigits
    (by decide)
    (by omega) (by omega)
  rw [Nat.mul_zero, Nat.pow_zero, Nat.mul_one, Nat.zero_add] at isRead
  rw [decode, List.drop_left, isText, List.take_append, List.take_of_length_le shortText, isRead,
    List.length_map, Nat.add_zero]
  congr 1
  unfold InI32 at inside
  unfold signMagnitude
  split
  · next nonneg =>
    rw [if_pos (by omega)]
    omega
  · next negative =>
    rw [if_neg (by omega)]
    omega

theorem decode_encode_sample :
    decode ([0x41, 0x2c] ++ (encode (-1234567) ++ [0x2c, 0x41])) 2 =
      { value := -1234567, start := 2 + (encode (-1234567)).length } :=
  decode_encode (by unfold InI32; decide) (by decide) [0x41, 0x2c] [0x2c, 0x41]

end Bunx.SourceMap.Vlq
