/-
Module: Bunx.Lib.Blocks
Purpose: A text that is absorbed block by block: what is left of it waits for more, and how the
  text is cut does not matter.
Trusted boundary: none
Main exports: Absorber, Absorber.absorb, absorb_short, absorb_long, absorb_induction,
  absorb_append, absorb_rest, absorb_whole
-/
import Mathlib.Data.List.Basic

namespace Bunx.Lib

variable {σ α : Type}

/-- Blocks of `size` are absorbed as long as more than `keep` is left. -/
structure Absorber (σ α : Type) where
  size : Nat
  keep : Nat
  step : σ → List α → σ
  positive : 0 < size
  fits : size ≤ keep + 1

namespace Absorber

def absorbLoop (absorber : Absorber σ α) : Nat → σ → List α → σ × List α
  | 0, s, text => (s, text)
  | fuel + 1, s, text =>
      if text.length ≤ absorber.keep then (s, text)
      else absorbLoop absorber fuel (absorber.step s (text.take absorber.size))
        (text.drop absorber.size)

/-- The state behind the blocks of a text, and what is left of the text. -/
def absorb (absorber : Absorber σ α) (s : σ) (text : List α) : σ × List α :=
  absorber.absorbLoop text.length s text

variable {absorber : Absorber σ α} {s : σ} {text : List α}

theorem absorbLoop_enough {fuel more : Nat} (enough : text.length ≤ fuel)
    (moreEnough : text.length ≤ more) :
    absorber.absorbLoop fuel s text = absorber.absorbLoop more s text := by
  induction fuel generalizing more s text with
  | zero =>
      have isEmpty : text.length ≤ absorber.keep := by omega
      cases more with
      | zero => rfl
      | succ more => rw [absorbLoop, absorbLoop, if_pos isEmpty]
  | succ fuel ih =>
      cases more with
      | zero =>
          have isEmpty : text.length ≤ absorber.keep := by omega
          rw [absorbLoop, absorbLoop, if_pos isEmpty]
      | succ more =>
          have positive := absorber.positive
          rw [absorbLoop, absorbLoop]
          split
          · rfl
          · apply ih
            · rw [List.length_drop]
              omega
            · rw [List.length_drop]
              omega

theorem absorb_short (short : text.length ≤ absorber.keep) : absorber.absorb s text = (s, text) := by
  unfold absorb
  cases text.length with
  | zero => rfl
  | succ fuel => rw [absorbLoop, if_pos short]

theorem absorb_long (long : absorber.keep < text.length) :
    absorber.absorb s text =
      absorber.absorb (absorber.step s (text.take absorber.size)) (text.drop absorber.size) := by
  have positive := absorber.positive
  have unfolded : absorber.absorb s text = absorber.absorbLoop (text.length + 1) s text :=
    absorbLoop_enough (Nat.le_refl _) (Nat.le_succ _)
  rw [unfolded, absorbLoop, if_neg (Nat.not_le_of_gt long)]
  apply absorbLoop_enough
  · rw [List.length_drop]
    omega
  · exact Nat.le_refl _

/-- Block by block, down to a text that only waits. -/
theorem absorb_induction {motive : σ → List α → Prop}
    (short : ∀ s text, text.length ≤ absorber.keep → motive s text)
    (long : ∀ s text, absorber.keep < text.length →
      motive (absorber.step s (text.take absorber.size)) (text.drop absorber.size) →
        motive s text) (s : σ) (text : List α) : motive s text := by
  induction size : text.length using Nat.strongRecOn generalizing s text with
  | ind n ih =>
      by_cases isShort : text.length ≤ absorber.keep
      · exact short s text isShort
      · have positive := absorber.positive
        apply long s text (Nat.lt_of_not_le isShort)
        apply ih _ _ _ _ rfl
        rw [List.length_drop]
        omega

/-- What has been left is absorbed together with the text behind it. -/
theorem absorb_append (absorber : Absorber σ α) (s : σ) (text behind : List α) :
    absorber.absorb s (text ++ behind) =
      absorber.absorb (absorber.absorb s text).1 ((absorber.absorb s text).2 ++ behind) := by
  revert s text
  apply absorb_induction
  · intro s text short
    rw [absorb_short short]
  · intro s text long ih
    have fits := absorber.fits
    have inside : absorber.size ≤ text.length := by omega
    have both : absorber.keep < (text ++ behind).length := by
      rw [List.length_append]
      omega
    rw [absorb_long both, List.take_append_of_le_length inside,
      List.drop_append_of_le_length inside, ih, ← absorb_long long]

/-- What is left is no more than what is kept. -/
theorem absorb_rest_le (absorber : Absorber σ α) (s : σ) (text : List α) :
    (absorber.absorb s text).2.length ≤ absorber.keep := by
  revert s text
  apply absorb_induction
  · intro s text short
    rw [absorb_short short]
    exact short
  · intro s text long ih
    rwa [absorb_long long]

/-- A text is its blocks and what is left of it. -/
theorem absorb_rest (absorber : Absorber σ α) (s : σ) (text : List α) :
    ∃ blocks, text = blocks ++ (absorber.absorb s text).2 ∧ absorber.size ∣ blocks.length ∧
      (absorber.keep < text.length → absorber.size ≤ blocks.length) := by
  revert s text
  apply absorb_induction
  · intro s text short
    rw [absorb_short short]
    exact ⟨[], rfl, Nat.dvd_zero _, fun long => absurd short (Nat.not_le_of_gt long)⟩
  · intro s text long ih
    have fits := absorber.fits
    obtain ⟨blocks, isText, whole, _⟩ := ih
    have oneMore : (text.take absorber.size ++ blocks).length =
        absorber.size + blocks.length := by
      rw [List.length_append, List.length_take]
      omega
    rw [absorb_long long]
    refine ⟨text.take absorber.size ++ blocks, ?_, ?_, ?_⟩
    · rw [List.append_assoc, ← isText, List.take_append_drop]
    · rw [oneMore]
      exact Nat.dvd_add (Nat.dvd_refl _) whole
    · intro _
      rw [oneMore]
      exact Nat.le_add_right _ _

/-- Nothing is left of whole blocks when every whole block is absorbed. -/
theorem absorb_whole (eager : absorber.keep < absorber.size) (s : σ)
    (whole : absorber.size ∣ text.length) : (absorber.absorb s text).2 = [] := by
  obtain ⟨blocks, isText, wholeBlocks, _⟩ := absorber.absorb_rest s text
  have few := absorber.absorb_rest_le s text
  have lengths := congrArg List.length isText
  rw [List.length_append] at lengths
  rw [lengths] at whole
  have wholeRest := (Nat.dvd_add_right wholeBlocks).mp whole
  apply List.eq_nil_of_length_eq_zero
  exact Nat.eq_zero_of_dvd_of_lt wholeRest (by omega)

end Absorber

end Bunx.Lib
