/-
Module: Bunx.Shell.BraceAmount
Purpose: The calculated amount is the number of expansions, cut at the largest 32-bit number.
Trusted boundary: none
Main exports: Word.expansions_length_pos, amountFrom_word, calculateExpandedAmount_tokens
-/
import Bunx.Shell.BraceTokens

namespace Bunx.Shell

/-! ### Counting expansions -/

theorem Word.length_expansions_group (variants : Variants) (rest : Word) :
    (Word.group variants rest).expansions.length =
      variants.expansions.length * rest.expansions.length := by
  rw [Word.expansions, List.length_flatMap]
  simp only [List.length_map, List.map_const', List.sum_replicate_nat]

mutual

theorem Word.expansions_length_pos : ∀ word : Word, 0 < word.expansions.length
  | .empty => Nat.one_pos
  | .text txt rest => by
      rw [Word.expansions, List.length_map]
      exact Word.expansions_length_pos rest
  | .group variants rest => by
      rw [Word.length_expansions_group]
      exact Nat.mul_pos (Variants.expansions_length_pos variants)
        (Word.expansions_length_pos rest)

theorem Variants.expansions_length_pos : ∀ variants : Variants,
    0 < variants.expansions.length
  | .last word => Word.expansions_length_pos word
  | .more word others => by
      rw [Variants.expansions, List.length_append]
      exact Nat.add_pos_left (Word.expansions_length_pos word) _

end

/-! ### Saturating arithmetic -/

/-- A count as far as 32 bits hold it. -/
def saturated (n : Nat) : Nat := min n u32Max

theorem saturatingAdd_saturated (a b : Nat) :
    saturatingAdd (saturated a) (saturated b) = saturated (a + b) := by
  unfold saturatingAdd saturated
  omega

theorem saturatingMul_saturated {a b : Nat} (posLeft : 0 < a) (posRight : 0 < b) :
    saturatingMul (saturated a) (saturated b) = saturated (a * b) := by
  unfold saturatingMul saturated
  have posMax : 0 < u32Max := by decide
  rcases Nat.le_total a u32Max with fitsLeft | largeLeft
  · rcases Nat.le_total b u32Max with fitsRight | largeRight
    · rw [Nat.min_eq_left fitsLeft, Nat.min_eq_left fitsRight]
    · have product : b ≤ a * b := Nat.le_mul_of_pos_left b posLeft
      have cut : u32Max ≤ a * u32Max := Nat.le_mul_of_pos_left u32Max posLeft
      rw [Nat.min_eq_left fitsLeft, Nat.min_eq_right largeRight, Nat.min_eq_right cut,
        Nat.min_eq_right (Nat.le_trans largeRight product)]
  · have product : a ≤ a * b := Nat.le_mul_of_pos_right a posRight
    have cut : u32Max ≤ u32Max * min b u32Max :=
      Nat.le_mul_of_pos_right u32Max (Nat.lt_min.mpr ⟨posRight, posMax⟩)
    rw [Nat.min_eq_right largeLeft, Nat.min_eq_right cut,
      Nat.min_eq_right (Nat.le_trans largeLeft product)]

theorem saturated_pos {n : Nat} (pos : 0 < n) : 0 < saturated n :=
  Nat.lt_min.mpr ⟨pos, by decide⟩

/-! ### The loop over the tokens of a word -/

mutual

/-- A word inside a group multiplies the product of its segment. -/
theorem amountFrom_word : ∀ (word : Word) {product accumulator : Nat} (outer : List StackEntry)
    (variantCount : Nat) (after : List Token), 0 < product →
      amountFrom (⟨saturated product, accumulator⟩ :: outer) variantCount
          (word.tokens ++ after) =
        amountFrom (⟨saturated (product * word.expansions.length), accumulator⟩ :: outer)
          variantCount after
  | .empty, product, _, _, _, _, _ => by
      rw [Word.expansions, List.length_singleton, Nat.mul_one]
      rfl
  | .text txt rest, product, accumulator, outer, variantCount, after, pos => by
      rw [Word.expansions, List.length_map]
      exact amountFrom_word rest outer variantCount after pos
  | .group variants rest, product, accumulator, outer, variantCount, after, pos => by
      obtain ⟨last, before, total, inner⟩ := amountFrom_variants variants 0
        (⟨saturated product, accumulator⟩ :: outer) variantCount (.close :: rest.tokens ++ after)
      rw [Nat.zero_add] at total
      have start : amountFrom (⟨saturated product, accumulator⟩ :: outer) variantCount
          ((Word.group variants rest).tokens ++ after) =
        amountFrom (⟨1, saturated 0⟩ :: ⟨saturated product, accumulator⟩ :: outer) variantCount
          (variants.tokens ++ (.close :: rest.tokens ++ after)) := by
        rw [Word.tokens, List.cons_append, List.append_assoc]
        rfl
      rw [start, inner, List.cons_append, amountFrom]
      dsimp only
      rw [saturatingAdd_saturated, total,
        saturatingMul_saturated pos (Variants.expansions_length_pos variants),
        amountFrom_word rest outer variantCount after
          (Nat.mul_pos pos (Variants.expansions_length_pos variants)),
        Word.length_expansions_group, Nat.mul_assoc]

/-- The variants of a group add up. -/
theorem amountFrom_variants : ∀ (variants : Variants) (counted : Nat)
    (outer : List StackEntry) (variantCount : Nat) (after : List Token),
      ∃ last before, before + last = counted + variants.expansions.length ∧
        amountFrom (⟨1, saturated counted⟩ :: outer) variantCount (variants.tokens ++ after) =
          amountFrom (⟨saturated last, saturated before⟩ :: outer) variantCount after
  | .last word, counted, outer, variantCount, after => by
      refine ⟨word.expansions.length, counted, rfl, ?_⟩
      have read : amountFrom (⟨saturated 1, saturated counted⟩ :: outer) variantCount
          (word.tokens ++ after) = _ := amountFrom_word word outer variantCount after Nat.one_pos
      rw [Nat.one_mul] at read
      exact read
  | .more word others, counted, outer, variantCount, after => by
      obtain ⟨last, before, total, inner⟩ := amountFrom_variants others
        (counted + word.expansions.length) outer variantCount after
      refine ⟨last, before, ?_, ?_⟩
      · rw [total, Variants.expansions, List.length_append, Nat.add_assoc]
      · have read : amountFrom (⟨saturated 1, saturated counted⟩ :: outer) variantCount
            (word.tokens ++ (.comma :: others.tokens ++ after)) = _ :=
          amountFrom_word word outer variantCount _ Nat.one_pos
        have one : saturated 1 = 1 := rfl
        rw [Nat.one_mul, one] at read
        rw [Variants.tokens, List.append_assoc, read, List.cons_append, amountFrom]
        dsimp only
        rw [saturatingAdd_saturated]
        exact inner

end

/-- Behind a first group, a word outside of groups multiplies the count. -/
theorem amountFrom_outside : ∀ (word : Word) {product : Nat} (after : List Token), 0 < product →
    amountFrom [] (saturated product) (word.tokens ++ after) =
      amountFrom [] (saturated (product * word.expansions.length)) after
  | .empty, product, _, _ => by
      rw [Word.expansions, List.length_singleton, Nat.mul_one]
      rfl
  | .text txt rest, product, after, pos => by
      rw [Word.expansions, List.length_map]
      exact amountFrom_outside rest after pos
  | .group variants rest, product, after, pos => by
      obtain ⟨last, before, total, inner⟩ := amountFrom_variants variants 0 []
        (saturated product) (.close :: rest.tokens ++ after)
      rw [Nat.zero_add] at total
      have start : amountFrom [] (saturated product) ((Word.group variants rest).tokens ++ after) =
          amountFrom [⟨1, saturated 0⟩] (saturated product)
            (variants.tokens ++ (.close :: rest.tokens ++ after)) := by
        rw [Word.tokens, List.cons_append, List.append_assoc]
        rfl
      rw [start, inner, List.cons_append, amountFrom]
      dsimp only
      rw [if_neg (Nat.ne_of_gt (saturated_pos pos)), saturatingAdd_saturated, total,
        saturatingMul_saturated pos (Variants.expansions_length_pos variants),
        amountFrom_outside rest after
          (Nat.mul_pos pos (Variants.expansions_length_pos variants)),
        Word.length_expansions_group, Nat.mul_assoc]

/-- The first group sets the count. -/
theorem amountFrom_first : ∀ (word : Word) (after : List Token), 0 < word.groups →
    amountFrom [] 0 (word.tokens ++ after) =
      amountFrom [] (saturated word.expansions.length) after
  | .empty, _, someGroup => absurd someGroup (Nat.lt_irrefl 0)
  | .text txt rest, after, someGroup => by
      rw [Word.expansions, List.length_map]
      exact amountFrom_first rest after someGroup
  | .group variants rest, after, _ => by
      obtain ⟨last, before, total, inner⟩ := amountFrom_variants variants 0 [] 0
        (.close :: rest.tokens ++ after)
      rw [Nat.zero_add] at total
      have start : amountFrom [] 0 ((Word.group variants rest).tokens ++ after) =
          amountFrom [⟨1, saturated 0⟩] 0
            (variants.tokens ++ (.close :: rest.tokens ++ after)) := by
        rw [Word.tokens, List.cons_append, List.append_assoc]
        rfl
      rw [start, inner, List.cons_append, amountFrom]
      dsimp only
      rw [if_pos rfl, saturatingAdd_saturated, total,
        amountFrom_outside rest after (Variants.expansions_length_pos variants),
        Word.length_expansions_group]

/-- The amount calculated for a word with a group is the number of its expansions. -/
theorem calculateExpandedAmount_tokens {word : Word} (someGroup : 0 < word.groups) :
    calculateExpandedAmount (word.tokens ++ [.eof]) =
      some (min word.expansions.length u32Max) := by
  unfold calculateExpandedAmount
  rw [amountFrom_first word [.eof] someGroup]
  rfl

end Bunx.Shell
