/-
Module: Bunx.Shell.BraceExpansion
Purpose: From a source to its outputs: tokenizing, counting and expanding give the expansions
  that the source stands for.
Trusted boundary: none
Main exports: ExpandsAs, braces_expand, braces_expand_sample, braces_expand_tokens_limit
-/
import Bunx.Shell.BraceNested
import Bunx.Shell.BraceLexer

namespace Bunx.Shell

/-- The amount calculated for a source is the number of its expansions, and with that many
outputs `expand` gives them, in order. -/
def ExpandsAs (encoding : StringEncoding) (src : Bytes) : Prop :=
  let output := tokenize encoding src
  let words := (referenceWord encoding src).expansions
  calculateExpandedAmount output.tokens = some words.length ∧
    expand output.tokens (List.replicate words.length []) output.containsNested = .ok words

/-- What `expand` is given for a source is expanded, when the flat expansion has no more tokens
than its table can index, and the nested one no group that ends in an empty variant. -/
theorem braces_expand (encoding : StringEncoding) (src : Bytes)
    (someGroup : 0 < (referenceWord encoding src).groups)
    (fewGroups : (referenceWord encoding src).groups ≤ 256)
    (fewWords : (referenceWord encoding src).expansions.length ≤ 65535)
    (shallow : unclosedBraces 0 (inputChars encoding src) = 0 ∨
      (referenceWord encoding src).depth ≤ 255)
    (flatTokens : ¬(referenceWord encoding src).nested →
      (tokenize encoding src).tokens.length ≤ 65535)
    (nestedVariants : (referenceWord encoding src).nested →
      (referenceWord encoding src).noneEndsEmpty = true) :
    ExpandsAs encoding src := by
  have lexed := tokenize_eq encoding src shallow
  unfold ExpandsAs
  rw [lexed] at flatTokens ⊢
  dsimp only at flatTokens ⊢
  generalize referenceWord encoding src = word at *
  have groups := word.groups_merge
  have expansions := word.expansions_merge
  have depth := word.depth_merge
  have amount := calculateExpandedAmount_tokens (by rw [groups]; exact someGroup)
  have fits : min word.expansions.length u32Max = word.expansions.length :=
    Nat.min_eq_left (Nat.le_trans fewWords (by decide))
  rw [expansions, fits] at amount
  refine ⟨amount, ?_⟩
  by_cases nested : word.nested
  · have short : word.merge.atoms.length ≤ 65536 := by
      have bound := length_atoms_merge word
      have cut : (if word.merge.startsWithText then 1 else 0) ≤ 1 := by split <;> decide
      omega
    have expanded := expand_nested (by rw [word.noneEndsEmpty_merge]; exact nestedVariants nested)
      (word.narrow_merge fewGroups) short (by rw [groups]; exact fewGroups)
      (by rw [expansions]; exact fewWords)
    rw [expansions] at expanded
    rw [decide_eq_true nested]
    exact expanded
  · have tokens := flatTokens nested
    rw [List.length_append, List.length_singleton] at tokens
    have flat : word.merge.depth ≤ 1 := by
      rw [depth]
      exact Nat.not_lt.mp nested
    have expanded := expand_flat flat (by rw [groups]; exact fewGroups) tokens
      (by rw [expansions]; exact fewWords)
    rw [expansions] at expanded
    rw [decide_eq_false nested]
    exact expanded

/-- `a{b,{c,e}d}` expands to `ab`, `acd` and `aed`. -/
theorem braces_expand_sample :
    ExpandsAs .ascii [0x61, 0x7b, 0x62, 0x2c, 0x7b, 0x63, 0x2c, 0x65, 0x7d, 0x64, 0x7d] :=
  braces_expand .ascii [0x61, 0x7b, 0x62, 0x2c, 0x7b, 0x63, 0x2c, 0x65, 0x7d, 0x64, 0x7d]
    (by decide) (by decide) (by decide) (by decide) (by decide) (by decide)

/-! ### A group of empty variants -/

/-- The group that holds this many commas and no text. -/
def emptyVariants : Nat → Variants
  | 0 => .last .empty
  | n + 1 => .more .empty (emptyVariants n)

def emptyVariantsSource (n : Nat) : Bytes := 0x7b :: (List.replicate n 0x2c ++ [0x7d])

theorem eatAll_plain : ∀ chars : List Nat, 0x5c ∉ chars →
    eatAll chars = chars.map fun c => { char := c, escaped := false }
  | [], _ => rfl
  | [c], plain => by
      rw [eatAll, if_neg (fun same => plain (List.mem_singleton.mpr same.symm))]
      rfl
  | c :: d :: rest, plain => by
      rw [List.mem_cons, not_or] at plain
      rw [eatAll, if_neg (fun same => plain.1 same.symm), eatAll_plain (d :: rest) plain.2]
      rfl

theorem readVariants_commas (encoding : StringEncoding) (n : Nat) : ∀ fuel, 2 * n + 2 ≤ fuel →
    readVariants encoding fuel
        (List.replicate n (⟨0x2c, false⟩ : InputChar) ++ ([⟨0x7d, false⟩] : List InputChar)) =
      some (emptyVariants n, []) := by
  induction n with
  | zero =>
      intro fuel enough
      obtain ⟨fuel, rfl⟩ : ∃ m, fuel = m + 2 := ⟨fuel - 2, by omega⟩
      rfl
  | succ n ih =>
      intro fuel enough
      obtain ⟨fuel, rfl⟩ : ∃ m, fuel = m + 2 := ⟨fuel - 2, by omega⟩
      have others := ih (fuel + 1) (by omega)
      have comma (chars : List InputChar) :
          readVariant encoding (fuel + 1) (⟨0x2c, false⟩ :: chars) =
            some (.empty, false, chars) := rfl
      rw [List.replicate_succ, List.cons_append, readVariants, comma]
      dsimp only
      rw [others]
      rfl

theorem referenceWord_emptyVariants (n : Nat) :
    referenceWord .ascii (emptyVariantsSource n) = .group (emptyVariants n) .empty := by
  have plain : 0x5c ∉ (emptyVariantsSource n).map UInt8.toNat := by
    simp [emptyVariantsSource]
  have read := readVariants_commas .ascii n
    (2 * (List.replicate n (⟨0x2c, false⟩ : InputChar) ++ ([⟨0x7d, false⟩] : List InputChar)).length + 1)
    (by rw [List.length_append, List.length_replicate, List.length_singleton]; omega)
  unfold referenceWord inputChars
  dsimp only
  rw [eatAll_plain _ plain]
  simp only [emptyVariantsSource, List.map_cons, List.map_append, List.map_replicate, List.map_nil]
  have comma : UInt8.toNat 0x2c = 0x2c := rfl
  have close : UInt8.toNat 0x7d = 0x7d := rfl
  rw [List.length_cons, readWord, if_pos (by decide), comma, close, read]
  dsimp only
  rw [List.length_append, List.length_singleton, readWord]

theorem emptyVariants_facts (n : Nat) :
    (emptyVariants n).groups = 0 ∧ (emptyVariants n).depth = 0 ∧
      (emptyVariants n).expansions.length = n + 1 ∧
      (emptyVariants n).merge.tokens = List.replicate n .comma := by
  induction n with
  | zero => exact ⟨rfl, rfl, rfl, rfl⟩
  | succ n ih =>
      obtain ⟨groups, depth, expansions, tokens⟩ := ih
      refine ⟨?_, ?_, ?_, ?_⟩
      · rw [emptyVariants, Variants.groups, groups, Word.groups]
      · rw [emptyVariants, Variants.depth, depth, Word.depth, Nat.max_self]
      · rw [emptyVariants, Variants.expansions, List.length_append, expansions, Word.expansions,
          List.length_singleton, Nat.add_comm]
      · rw [emptyVariants, Variants.merge, Variants.tokens, tokens, List.replicate_succ]
        rfl

/-- A group of 65535 empty variants has too many tokens for the table of the flat expansion. -/
theorem braces_expand_tokens_limit :
    (referenceWord .ascii (emptyVariantsSource 65534)).groups = 1 ∧
      (referenceWord .ascii (emptyVariantsSource 65534)).expansions.length = 65535 ∧
      ¬ExpandsAs .ascii (emptyVariantsSource 65534) := by
  obtain ⟨groups, depth, expansions, tokens⟩ := emptyVariants_facts 65534
  have lexed := tokenize_eq .ascii (emptyVariantsSource 65534)
  unfold ExpandsAs
  rw [referenceWord_emptyVariants] at lexed ⊢
  have groupDepth : (Word.group (emptyVariants 65534) .empty).depth = 1 := by
    rw [Word.depth, depth, Word.depth]
    rfl
  have lexed := lexed (Or.inr (by rw [groupDepth]; decide))
  rw [lexed]
  refine ⟨?_, ?_, ?_⟩
  · rw [Word.groups, groups, Word.groups]
  · rw [Word.length_expansions_group, expansions]
    rfl
  · intro holds
    have expanded := holds.2
    have flat : ¬(Word.group (emptyVariants 65534) .empty).nested := by
      rw [Word.nested, groupDepth]
      decide
    have length : ((Word.group (emptyVariants 65534) .empty).merge.tokens ++
        [Token.eof]).length = 65537 := by
      rw [Word.merge, Word.tokens, tokens]
      simp only [List.length_append, List.length_cons, List.length_replicate, List.length_nil]
      rfl
    dsimp only at expanded
    have counted := (Word.group (emptyVariants 65534) .empty).groups_merge
    rw [decide_eq_false flat, expand, checkBraceGroupCount_tokens] at expanded
    · dsimp only at expanded
      rw [if_pos (by decide), buildExpansionTable, length, if_pos (by decide)] at expanded
      cases expanded
    · rw [counted, Word.groups, groups, Word.groups]
      decide

end Bunx.Shell
