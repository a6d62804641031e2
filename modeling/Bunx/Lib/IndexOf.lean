/-
Module: Bunx.Lib.IndexOf
Purpose: Where a list occurs first in another one.
Trusted boundary: none
Main exports: indexOf, indexOf_eq_some_iff, indexOf_eq_none_iff
-/
import Mathlib.Data.List.Infix

namespace Bunx.Lib

variable {α : Type} [DecidableEq α]

/-- Where the needle occurs first. -/
def indexOf (needle : List α) : List α → Option Nat
  | [] => if needle = [] then some 0 else none
  | c :: rest => if needle.isPrefixOf (c :: rest) then some 0 else (indexOf needle rest).map (· + 1)

variable {needle text : List α} {i : Nat}

theorem indexOf_eq_some_iff :
    indexOf needle text = some i ↔
      needle <+: text.drop i ∧ i ≤ text.length ∧ ∀ j < i, ¬ needle <+: text.drop j := by
  induction text generalizing i with
  | nil =>
      rw [indexOf]
      split
      · next isEmpty =>
        subst isEmpty
        constructor
        · rintro ⟨⟩
          exact ⟨List.nil_prefix, Nat.le_refl _, fun j below => absurd below (Nat.not_lt_zero j)⟩
        · rintro ⟨_, inside, _⟩
          exact congrArg some (Nat.le_zero.mp inside).symm
      · next nonempty =>
        simp [nonempty]
  | cons c text ih =>
      rw [indexOf]
      by_cases here : needle.isPrefixOf (c :: text) = true
      · rw [if_pos here]
        have isHere := List.isPrefixOf_iff_prefix.mp here
        constructor
        · rintro ⟨⟩
          exact ⟨isHere, Nat.zero_le _, fun j below => absurd below (Nat.not_lt_zero j)⟩
        · rintro ⟨_, _, first⟩
          cases i with
          | zero => rfl
          | succ i => exact absurd isHere (first 0 (Nat.succ_pos i))
      · rw [if_neg here, Option.map_eq_some_iff]
        have notHere : ¬ needle <+: c :: text := mt List.isPrefixOf_iff_prefix.mpr here
        constructor
        · rintro ⟨j, found, rfl⟩
          obtain ⟨isThere, inside, first⟩ := ih.mp found
          refine ⟨isThere, Nat.succ_le_succ inside, fun k below => ?_⟩
          cases k with
          | zero => exact notHere
          | succ k => exact first k (Nat.lt_of_succ_lt_succ below)
        · rintro ⟨isThere, inside, first⟩
          cases i with
          | zero => exact absurd isThere notHere
          | succ i =>
              exact ⟨i, ih.mpr ⟨isThere, Nat.le_of_succ_le_succ inside,
                fun j below => first (j + 1) (Nat.succ_lt_succ below)⟩, rfl⟩

theorem indexOf_eq_none_iff :
    indexOf needle text = none ↔ ∀ j ≤ text.length, ¬ needle <+: text.drop j := by
  induction text with
  | nil =>
      rw [indexOf]
      by_cases isEmpty : needle = []
      · simp [isEmpty]
      · simp [isEmpty]
  | cons c text ih =>
      rw [indexOf]
      by_cases here : needle.isPrefixOf (c :: text) = true
      · rw [if_pos here]
        have isHere := List.isPrefixOf_iff_prefix.mp here
        constructor
        · intro found
          cases found
        · intro nowhere
          exact absurd isHere (nowhere 0 (Nat.zero_le _))
      · rw [if_neg here, Option.map_eq_none_iff, ih]
        have notHere : ¬ needle <+: c :: text := mt List.isPrefixOf_iff_prefix.mpr here
        constructor
        · intro nowhere j inside
          cases j with
          | zero => exact notHere
          | succ j => exact nowhere j (Nat.le_of_succ_le_succ inside)
        · intro nowhere j inside
          exact nowhere (j + 1) (Nat.succ_le_succ inside)

end Bunx.Lib
