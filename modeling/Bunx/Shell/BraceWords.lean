/-
Module: Bunx.Shell.BraceWords
Purpose: What a brace expansion means: a source read as words whose complete groups hold
  variants, and the words it expands to.
Trusted boundary: none
Main exports:
  Word, Variants, Word.expansions, Word.groups, Word.depth, Word.nested, Word.noneEndsEmpty,
  readVariants, readWord, referenceWord, unclosedBraces
-/
import Bunx.Shell.Braces

namespace Bunx.Shell

mutual

/-- Text and complete brace groups, one after another. -/
inductive Word where
  | empty
  | text (txt : Bytes) (rest : Word)
  | group (variants : Variants) (rest : Word)

/-- The variants of a group; there is always one. -/
inductive Variants where
  | last (word : Word)
  | more (word : Word) (others : Variants)

end

/-! ### Expansions -/

mutual

/-- The words a word expands to: what its groups expand to is combined from left to right. -/
def Word.expansions : Word → List Bytes
  | .empty => [[]]
  | .text txt rest => rest.expansions.map (txt ++ ·)
  | .group variants rest =>
      variants.expansions.flatMap fun variant => rest.expansions.map (variant ++ ·)

def Variants.expansions : Variants → List Bytes
  | .last word => word.expansions
  | .more word others => word.expansions ++ others.expansions

end

mutual

/-- How many groups a word holds, nested ones included. -/
def Word.groups : Word → Nat
  | .empty => 0
  | .text _ rest => rest.groups
  | .group variants rest => variants.groups + 1 + rest.groups

def Variants.groups : Variants → Nat
  | .last word => word.groups
  | .more word others => word.groups + others.groups

end

mutual

/-- How deep groups are nested in a word. -/
def Word.depth : Word → Nat
  | .empty => 0
  | .text _ rest => rest.depth
  | .group variants rest => max (variants.depth + 1) rest.depth

def Variants.depth : Variants → Nat
  | .last word => word.depth
  | .more word others => max word.depth others.depth

end

/-- Does a group hold another one? -/
def Word.nested (word : Word) : Prop := 1 < word.depth

instance (word : Word) : Decidable word.nested := inferInstanceAs (Decidable (_ < _))

def Word.isEmpty : Word → Bool
  | .empty => true
  | _ => false

mutual

/-- No group ends in a variant without text. -/
def Word.noneEndsEmpty : Word → Bool
  | .empty => true
  | .text _ rest => rest.noneEndsEmpty
  | .group variants rest => variants.noneEndsEmpty && rest.noneEndsEmpty

def Variants.noneEndsEmpty : Variants → Bool
  | .last word => !word.isEmpty && word.noneEndsEmpty
  | .more word others => word.noneEndsEmpty && others.noneEndsEmpty

end

/-! ### Reading a source -/

/-- Is this the bare character, not an escaped one? -/
def InputChar.isBare (c : InputChar) (char : Nat) : Bool := !c.escaped && c.char == char

mutual

/-- The variants of the group whose opening brace was passed, and what follows its closing
brace; nothing when it is never closed. -/
def readVariants (encoding : StringEncoding) :
    Nat → List InputChar → Option (Variants × List InputChar)
  | 0, _ => none
  | fuel + 1, chars =>
      match readVariant encoding fuel chars with
      | none => none
      | some (word, true, rest) => some (.last word, rest)
      | some (word, false, rest) =>
          match readVariants encoding fuel rest with
          | none => none
          | some (others, rest) => some (.more word others, rest)

/-- One variant, whether it is the last of its group, and what follows it. -/
def readVariant (encoding : StringEncoding) :
    Nat → List InputChar → Option (Word × Bool × List InputChar)
  | 0, _ => none
  | _ + 1, [] => none
  | fuel + 1, c :: chars =>
      if c.isBare 0x7d then some (.empty, true, chars)
      else if c.isBare 0x2c then some (.empty, false, chars)
      else if c.isBare 0x7b then
        match readVariants encoding fuel chars with
        | none => none
        | some (variants, rest) =>
            match readVariant encoding fuel rest with
            | none => none
            | some (word, isLast, rest) => some (.group variants word, isLast, rest)
      else
        match readVariant encoding fuel chars with
        | none => none
        | some (word, isLast, rest) =>
            some (.text (charBytes encoding c.char) word, isLast, rest)

end

/-- The word of a source. Outside its complete groups, braces and commas are text. -/
def readWord (encoding : StringEncoding) : Nat → List InputChar → Word
  | 0, _ => .empty
  | _ + 1, [] => .empty
  | fuel + 1, c :: chars =>
      if c.isBare 0x7b then
        match readVariants encoding (2 * chars.length + 1) chars with
        | some (variants, rest) => .group variants (readWord encoding fuel rest)
        | none => .text (charBytes encoding c.char) (readWord encoding fuel chars)
      else .text (charBytes encoding c.char) (readWord encoding fuel chars)

/-- The word that a source stands for. -/
def referenceWord (encoding : StringEncoding) (src : Bytes) : Word :=
  let chars := inputChars encoding src
  readWord encoding chars.length chars

/-- How many opening braces are never closed, `opened` of them before. -/
def unclosedBraces : Nat → List InputChar → Nat
  | opened, [] => opened
  | opened, c :: chars =>
      if c.isBare 0x7b then unclosedBraces (opened + 1) chars
      else if c.isBare 0x7d then unclosedBraces (opened - 1) chars
      else unclosedBraces opened chars

example : (referenceWord .ascii [0x7b, 0x61, 0x2c, 0x7b, 0x62, 0x2c, 0x63, 0x7d]).expansions =
    [[0x7b, 0x61, 0x2c, 0x62], [0x7b, 0x61, 0x2c, 0x63]] := by decide

/-! ### Fuel of the reader -/

mutual

/-- A complete group is read whenever there is fuel for what follows its brace. -/
theorem readVariants_fuel {encoding : StringEncoding} :
    ∀ {fuel : Nat} {chars : List InputChar} {found : Variants × List InputChar},
      readVariants encoding fuel chars = some found →
        found.2.length < chars.length ∧
          ∀ n, 2 * chars.length + 1 ≤ n → readVariants encoding n chars = some found
  | 0, _, _, reads => by
      rw [readVariants] at reads
      cases reads
  | fuel + 1, chars, found, reads => by
      rw [readVariants] at reads
      cases variant : readVariant encoding fuel chars with
      | none =>
          rw [variant] at reads
          cases reads
      | some first =>
          obtain ⟨shorter, more⟩ := readVariant_fuel variant
          rw [variant] at reads
          rcases first with ⟨word, isLast, rest⟩
          cases isLast with
          | true =>
              cases reads
              refine ⟨shorter, ?_⟩
              intro n enough
              obtain ⟨m, rfl⟩ : ∃ m, n = m + 1 := ⟨n - 1, by omega⟩
              rw [readVariants, more m (by omega)]
          | false =>
              dsimp only at reads
              cases others : readVariants encoding fuel rest with
              | none =>
                  rw [others] at reads
                  cases reads
              | some next =>
                  obtain ⟨shorterStill, moreStill⟩ := readVariants_fuel others
                  rw [others] at reads
                  cases reads
                  refine ⟨Nat.lt_trans shorterStill shorter, ?_⟩
                  intro n enough
                  obtain ⟨m, rfl⟩ : ∃ m, n = m + 1 := ⟨n - 1, by omega⟩
                  have restShorter : rest.length < chars.length := shorter
                  rw [readVariants, more m (by omega)]
                  dsimp only
                  rw [moreStill m (by omega)]

theorem readVariant_fuel {encoding : StringEncoding} :
    ∀ {fuel : Nat} {chars : List InputChar} {found : Word × Bool × List InputChar},
      readVariant encoding fuel chars = some found →
        found.2.2.length < chars.length ∧
          ∀ n, 2 * chars.length ≤ n → readVariant encoding n chars = some found
  | 0, _, _, reads => by
      rw [readVariant] at reads
      cases reads
  | _ + 1, [], _, reads => by
      rw [readVariant] at reads
      cases reads
  | fuel + 1, c :: chars, found, reads => by
      rw [readVariant] at reads
      split at reads
      · rename_i closes
        cases reads
        refine ⟨Nat.lt_succ_self _, ?_⟩
        intro n enough
        obtain ⟨m, rfl⟩ : ∃ m, n = m + 1 := ⟨n - 1, by simp at enough; omega⟩
        rw [readVariant, if_pos closes]
      · rename_i closes
        split at reads
        · rename_i separates
          cases reads
          refine ⟨Nat.lt_succ_self _, ?_⟩
          intro n enough
          obtain ⟨m, rfl⟩ : ∃ m, n = m + 1 := ⟨n - 1, by simp at enough; omega⟩
          rw [readVariant, if_neg closes, if_pos separates]
        · rename_i separates
          split at reads
          · rename_i opens
            cases group : readVariants encoding fuel chars with
            | none =>
                rw [group] at reads
                cases reads
            | some inner =>
                obtain ⟨shorter, more⟩ := readVariants_fuel group
                rw [group] at reads
                rcases inner with ⟨variants, rest⟩
                dsimp only at reads shorter
                cases tail : readVariant encoding fuel rest with
                | none =>
                    rw [tail] at reads
                    cases reads
                | some next =>
                    obtain ⟨shorterStill, moreStill⟩ := readVariant_fuel tail
                    rw [tail] at reads
                    rcases next with ⟨word, isLast, rest'⟩
                    cases reads
                    refine ⟨Nat.lt_succ_of_lt (Nat.lt_trans shorterStill shorter), ?_⟩
                    intro n enough
                    rw [List.length_cons] at enough
                    obtain ⟨m, rfl⟩ : ∃ m, n = m + 1 := ⟨n - 1, by omega⟩
                    rw [readVariant, if_neg closes, if_neg separates, if_pos opens,
                      more m (by omega)]
                    dsimp only
                    rw [moreStill m (by omega)]
          · rename_i opens
            cases tail : readVariant encoding fuel chars with
            | none =>
                rw [tail] at reads
                cases reads
            | some next =>
                obtain ⟨shorter, more⟩ := readVariant_fuel tail
                rw [tail] at reads
                rcases next with ⟨word, isLast, rest'⟩
                cases reads
                refine ⟨Nat.lt_succ_of_lt shorter, ?_⟩
                intro n enough
                rw [List.length_cons] at enough
                obtain ⟨m, rfl⟩ : ∃ m, n = m + 1 := ⟨n - 1, by omega⟩
                rw [readVariant, if_neg closes, if_neg separates, if_neg opens,
                  more m (by omega)]

end

end Bunx.Shell
