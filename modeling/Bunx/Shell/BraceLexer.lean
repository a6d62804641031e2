/-
Module: Bunx.Shell.BraceLexer
Purpose: The lexer gives the tokens of the word a source stands for.
Trusted boundary: none
Main exports: Frames, Frames.step, Frames.collapse, run_readVariants, collapse_run, Stands,
  lexer_step, tokenize_eq
-/
import Mathlib.Data.List.Forall2
import Bunx.Shell.BraceTokens

namespace Bunx.Shell

/-! ### Reading with a stack of open groups -/

/-- A source read up to some place: the word outside of open braces, and what was read behind
each brace that is open, innermost first. -/
structure Frames where
  base : Word
  opened : List Variants

/-- Variants that go on where others stop. -/
def Variants.join : Variants → Variants → Variants
  | .last word, .last next => .last (word.append next)
  | .last word, .more next others => .more (word.append next) others
  | .more word others, after => .more word (others.join after)

theorem Variants.join_last_empty (variants : Variants) :
    variants.join (.last .empty) = variants := by
  cases variants with
  | last word => rw [Variants.join, Word.append_empty]
  | more word others => rw [Variants.join, Variants.join_last_empty others]

theorem Variants.empty_join (variants : Variants) :
    (Variants.last .empty).join variants = variants := by
  cases variants <;> rfl

theorem Variants.join_assoc : ∀ a b c : Variants, (a.join b).join c = a.join (b.join c)
  | .last _, .last _, .last _ => congrArg Variants.last (Word.append_assoc _ _ _)
  | .last _, .last _, .more _ _ => congrArg (Variants.more · _) (Word.append_assoc _ _ _)
  | .last _, .more _ _, _ => rfl
  | .more _ others, b, c => congrArg (Variants.more _) (Variants.join_assoc others b c)

theorem Variants.tokens_join : ∀ a b : Variants,
    (a.join b).tokens = a.tokens ++ b.tokens
  | .last _, .last _ => Word.tokens_append _ _
  | .last word, .more next others => by
      rw [Variants.join, Variants.tokens, Variants.tokens, Variants.tokens, Word.tokens_append,
        List.append_assoc]
  | .more word others, b => by
      rw [Variants.join, Variants.tokens, Variants.tokens, Variants.tokens_join others b,
        List.append_assoc, List.cons_append]

theorem Variants.literal_join : ∀ a b : Variants,
    (a.join b).literal = a.literal.append b.literal
  | .last _, .last _ => rfl
  | .last word, .more next others => Word.append_assoc _ _ _
  | .more word others, b => by
      rw [Variants.join, Variants.literal, Variants.literal, Variants.literal_join others b,
        Word.append_assoc, Word.append]

namespace Frames

/-- Go on with variants behind the innermost open brace. -/
def join (s : Frames) (after : Variants) : Frames :=
  match s.opened with
  | [] => s
  | top :: outer => { s with opened := top.join after :: outer }

/-- Go on with a word. -/
def append (s : Frames) (word : Word) : Frames :=
  match s.opened with
  | [] => { s with base := s.base.append word }
  | top :: outer => { s with opened := top.join (.last word) :: outer }

/-- Close the innermost open brace. -/
def reduce (s : Frames) : Frames :=
  match s.opened with
  | [] => s
  | top :: outer => { s with opened := outer }.append (.group top .empty)

/-- One character. -/
def step (encoding : StringEncoding) (s : Frames) (c : InputChar) : Frames :=
  if c.isBare 0x7b then { s with opened := .last .empty :: s.opened }
  else if c.isBare 0x7d ∧ s.opened ≠ [] then s.reduce
  else if c.isBare 0x2c ∧ s.opened ≠ [] then s.join (.more .empty (.last .empty))
  else s.append (.text (charBytes encoding c.char) .empty)

def run (encoding : StringEncoding) (s : Frames) (chars : List InputChar) : Frames :=
  chars.foldl (step encoding) s

theorem opened_append (s : Frames) (word : Word) (noneOpen : s.opened = []) :
    (s.append word).opened = [] := by
  rcases s with ⟨base, _ | ⟨top, outer⟩⟩
  · rfl
  · cases noneOpen

/-- The braces still open are text. -/
def collapse (base : Word) : List Variants → Word
  | [] => base
  | top :: outer => (collapse base outer).append (.text [0x7b] top.literal)

theorem collapse_append (s : Frames) (word : Word) :
    collapse (s.append word).base (s.append word).opened =
      (collapse s.base s.opened).append word := by
  rcases s with ⟨base, _ | ⟨top, outer⟩⟩
  · rfl
  · unfold append
    dsimp only
    rw [collapse, collapse, Variants.literal_join, Word.append_assoc]
    rfl

end Frames

open Frames

theorem append_text (s : Frames) (txt : Bytes) (word : Word) :
    (s.append (.text txt .empty)).append word = s.append (.text txt word) := by
  rcases s with ⟨base, _ | ⟨top, outer⟩⟩
  · exact congrArg (Frames.mk · _) (Word.append_assoc _ _ _)
  · exact congrArg (fun v => Frames.mk base (v :: outer)) (Variants.join_assoc _ _ _)

theorem append_group (s : Frames) (variants : Variants) (word : Word) :
    (s.append (.group variants .empty)).append word = s.append (.group variants word) := by
  rcases s with ⟨base, _ | ⟨top, outer⟩⟩
  · exact congrArg (Frames.mk · _) (Word.append_assoc _ _ _)
  · exact congrArg (fun v => Frames.mk base (v :: outer)) (Variants.join_assoc _ _ _)

/-- A character is one character only. -/
theorem isBare_ne {c : InputChar} {char other : Nat} (bare : c.isBare char = true)
    (different : char ≠ other) : ¬ c.isBare other = true := by
  unfold InputChar.isBare at *
  rw [Bool.and_eq_true, beq_iff_eq] at *
  intro both
  exact different (bare.2.symm.trans both.2)

mutual

/-- Reading a complete group leaves the stack as if the group had been put down at once. -/
theorem run_readVariants {encoding : StringEncoding} :
    ∀ {fuel : Nat} {chars : List InputChar} {variants : Variants} {rest : List InputChar},
      readVariants encoding fuel chars = some (variants, rest) →
        ∀ (base : Word) (top : Variants) (outer : List Variants),
          run encoding ⟨base, top :: outer⟩ chars =
            run encoding (Frames.reduce ⟨base, top.join variants :: outer⟩) rest
  | 0, _, _, _, reads => by
      rw [readVariants] at reads
      cases reads
  | fuel + 1, chars, variants, rest, reads => by
      intro base top outer
      rw [readVariants] at reads
      cases first : readVariant encoding fuel chars with
      | none =>
          rw [first] at reads
          cases reads
      | some found =>
          rw [first] at reads
          rcases found with ⟨word, isLast, after⟩
          have here := run_readVariant first base top outer
          cases isLast with
          | true =>
              cases reads
              exact here
          | false =>
              dsimp only at reads
              cases more : readVariants encoding fuel after with
              | none =>
                  rw [more] at reads
                  cases reads
              | some next =>
                  rw [more] at reads
                  rcases next with ⟨others, tail⟩
                  cases reads
                  have there := run_readVariants more base
                    (top.join (.more word (.last .empty))) outer
                  rw [Variants.join_assoc, Variants.join, Variants.empty_join] at there
                  rw [here]
                  exact there

/-- Reading one variant of a group puts it down behind what was read of the group. -/
theorem run_readVariant {encoding : StringEncoding} :
    ∀ {fuel : Nat} {chars : List InputChar} {word : Word} {isLast : Bool}
      {rest : List InputChar},
      readVariant encoding fuel chars = some (word, isLast, rest) →
        ∀ (base : Word) (top : Variants) (outer : List Variants),
          run encoding ⟨base, top :: outer⟩ chars =
            run encoding
              (if isLast then Frames.reduce ⟨base, top.join (.last word) :: outer⟩
                else ⟨base, top.join (.more word (.last .empty)) :: outer⟩) rest
  | 0, _, _, _, _, reads => by
      rw [readVariant] at reads
      cases reads
  | _ + 1, [], _, _, _, reads => by
      rw [readVariant] at reads
      cases reads
  | fuel + 1, c :: chars, word, isLast, rest, reads => by
      intro base top outer
      have first : run encoding ⟨base, top :: outer⟩ (c :: chars) =
          run encoding (step encoding ⟨base, top :: outer⟩ c) chars := rfl
      rw [first]
      have stacked : (⟨base, top :: outer⟩ : Frames).opened ≠ [] := by simp
      rw [readVariant] at reads
      by_cases closes : c.isBare 0x7d = true
      · have other : ¬ c.isBare 0x7b = true := isBare_ne closes (by decide)
        rw [if_pos closes] at reads
        cases reads
        rw [step, if_neg other, if_pos ⟨closes, stacked⟩, Variants.join_last_empty]
        rfl
      · rw [if_neg closes] at reads
        by_cases separates : c.isBare 0x2c = true
        · have other : ¬ c.isBare 0x7b = true := isBare_ne separates (by decide)
          rw [if_pos separates] at reads
          cases reads
          rw [step, if_neg other, if_neg (fun both => closes both.1),
            if_pos ⟨separates, stacked⟩]
          rfl
        · rw [if_neg separates] at reads
          by_cases opens : c.isBare 0x7b = true
          · rw [if_pos opens] at reads
            rw [step, if_pos opens]
            cases group : readVariants encoding fuel chars with
            | none =>
                rw [group] at reads
                cases reads
            | some found =>
                rw [group] at reads
                rcases found with ⟨variants, after⟩
                dsimp only at reads
                cases more : readVariant encoding fuel after with
                | none =>
                    rw [more] at reads
                    cases reads
                | some next =>
                    rw [more] at reads
                    rcases next with ⟨tail, lastToo, behind⟩
                    cases reads
                    have here := run_readVariants group base (.last .empty) (top :: outer)
                    have there := run_readVariant more base
                      (top.join (.last (.group variants .empty))) outer
                    rw [Variants.empty_join] at here
                    rw [Variants.join_assoc, Variants.join_assoc] at there
                    rw [here]
                    exact there
          · rw [if_neg opens] at reads
            rw [step, if_neg opens, if_neg (fun both => closes both.1),
              if_neg (fun both => separates both.1)]
            cases more : readVariant encoding fuel chars with
            | none =>
                rw [more] at reads
                cases reads
            | some next =>
                rw [more] at reads
                rcases next with ⟨tail, lastToo, behind⟩
                cases reads
                have there := run_readVariant more base
                  (top.join (.last (.text (charBytes encoding c.char) .empty))) outer
                rw [Variants.join_assoc, Variants.join_assoc] at there
                exact there

end

/-! ### Braces that are never closed -/

/-- A group whose opening brace was passed is closed. -/
def Closes (encoding : StringEncoding) (chars : List InputChar) : Prop :=
  ∃ fuel found, readVariants encoding fuel chars = some found

theorem not_closes {encoding : StringEncoding} {chars : List InputChar}
    (unclosed : readVariants encoding (2 * chars.length + 1) chars = none) :
    ¬ Closes encoding chars := by
  rintro ⟨fuel, found, reads⟩
  rw [(readVariants_fuel reads).2 _ (Nat.le_refl _)] at unclosed
  cases unclosed

/-- What stands in front of a closed group and belongs to its first variant leaves it closed. -/
theorem Closes.of_variant {encoding : StringEncoding} {chars longer : List InputChar}
    (closes : Closes encoding chars)
    (first : ∀ fuel word isLast rest, readVariant encoding fuel chars = some (word, isLast, rest) →
      ∃ fuel' word', readVariant encoding fuel' longer = some (word', isLast, rest)) :
    Closes encoding longer := by
  obtain ⟨fuel, found, reads⟩ := closes
  cases fuel with
  | zero =>
      rw [readVariants] at reads
      cases reads
  | succ fuel =>
      rw [readVariants] at reads
      cases variant : readVariant encoding fuel chars with
      | none =>
          rw [variant] at reads
          cases reads
      | some next =>
          rw [variant] at reads
          rcases next with ⟨word, isLast, rest⟩
          obtain ⟨fuel', word', longerReads⟩ := first fuel word isLast rest variant
          have enough := (readVariant_fuel longerReads).2
          cases isLast with
          | true =>
              refine ⟨2 * longer.length + 1, (.last word', rest), ?_⟩
              rw [readVariants, enough _ (Nat.le_refl _)]
          | false =>
              dsimp only at reads
              cases others : readVariants encoding fuel rest with
              | none =>
                  rw [others] at reads
                  cases reads
              | some next =>
                  have enoughOthers := (readVariants_fuel others).2
                  refine ⟨2 * longer.length + 2 * rest.length + 2, (.more word' next.1, next.2), ?_⟩
                  rw [readVariants, enough _ (by omega)]
                  dsimp only
                  rw [enoughOthers _ (by omega)]

theorem Closes.text {encoding : StringEncoding} {c : InputChar} {chars : List InputChar}
    (closes : Closes encoding chars) (notClose : ¬ c.isBare 0x7d = true)
    (notComma : ¬ c.isBare 0x2c = true) (notOpen : ¬ c.isBare 0x7b = true) :
    Closes encoding (c :: chars) := by
  apply closes.of_variant
  intro fuel word isLast rest reads
  refine ⟨fuel + 1, .text (charBytes encoding c.char) word, ?_⟩
  rw [readVariant, if_neg notClose, if_neg notComma, if_neg notOpen, reads]

theorem Closes.group {encoding : StringEncoding} {c : InputChar} {chars rest : List InputChar}
    {variants : Variants} {fuel : Nat} (opens : c.isBare 0x7b = true)
    (reads : readVariants encoding fuel chars = some (variants, rest))
    (closes : Closes encoding rest) : Closes encoding (c :: chars) := by
  apply closes.of_variant
  intro fuel' word isLast after next
  have enough := (readVariants_fuel reads).2
  have enoughNext := (readVariant_fuel next).2
  refine ⟨2 * chars.length + 2 * rest.length + 2, .group variants word, ?_⟩
  rw [readVariant, if_neg (isBare_ne opens (by decide)), if_neg (isBare_ne opens (by decide)),
    if_pos opens, enough _ (by omega)]
  dsimp only
  rw [enoughNext _ (by omega)]

theorem Closes.close {encoding : StringEncoding} {c : InputChar} (chars : List InputChar)
    (close : c.isBare 0x7d = true) : Closes encoding (c :: chars) := by
  refine ⟨2, (.last .empty, chars), ?_⟩
  rw [readVariants, readVariant, if_pos close]

theorem Closes.comma {encoding : StringEncoding} {c : InputChar} {chars : List InputChar}
    (closes : Closes encoding chars) (comma : c.isBare 0x2c = true) :
    Closes encoding (c :: chars) := by
  obtain ⟨fuel, found, reads⟩ := closes
  have enough := (readVariants_fuel reads).2
  refine ⟨2 * chars.length + 2, (.more .empty found.1, found.2), ?_⟩
  rw [readVariants, readVariant, if_neg (isBare_ne comma (by decide)), if_pos comma]
  dsimp only
  rw [enough _ (by omega)]

/-- The bytes of a bare brace or comma are its character. -/
theorem charBytes_ascii (encoding : StringEncoding) {c : InputChar} {char : Nat}
    (bare : c.isBare char = true) (small : char < 0x80) :
    charBytes encoding c.char = [UInt8.ofNat char] := by
  unfold InputChar.isBare at bare
  rw [Bool.and_eq_true, beq_iff_eq] at bare
  rw [bare.2]
  cases encoding with
  | ascii => rfl
  | wtf8 | utf16 =>
      unfold charBytes encodeWtf8Rune
      exact if_pos small

/-- Where no brace that is open is closed again, the rest is read as outside of groups. -/
theorem collapse_run {encoding : StringEncoding} (n : Nat) {chars : List InputChar}
    (short : chars.length ≤ n) {s : Frames} (staysOpenBefore : s.opened = [] ∨ ¬ Closes encoding chars) :
    collapse (run encoding s chars).base (run encoding s chars).opened =
      (collapse s.base s.opened).append (readWord encoding n chars) := by
  induction n generalizing chars s with
  | zero =>
      have nothingLeft := List.length_eq_zero_iff.mp (Nat.le_zero.mp short)
      rw [nothingLeft, readWord, Word.append_empty]
      rfl
  | succ n ih =>
      cases chars with
      | nil =>
          rw [readWord, Word.append_empty]
          rfl
      | cons c chars =>
          have shorter : chars.length ≤ n := Nat.le_of_succ_le_succ short
          have first : run encoding s (c :: chars) = run encoding (step encoding s c) chars := rfl
          rw [first, readWord]
          by_cases opens : c.isBare 0x7b = true
          · rw [if_pos opens, step, if_pos opens]
            cases group : readVariants encoding (2 * chars.length + 1) chars with
            | none =>
                have unclosed := not_closes group
                rw [ih shorter (Or.inr unclosed), collapse, Word.append_assoc,
                  charBytes_ascii encoding opens (by decide)]
                rfl
            | some found =>
                rcases found with ⟨variants, rest⟩
                have restShorter : rest.length < chars.length := (readVariants_fuel group).1
                have grouped := run_readVariants group s.base (.last .empty) s.opened
                rw [Variants.empty_join] at grouped
                have reduced : Frames.reduce ⟨s.base, variants :: s.opened⟩ =
                    s.append (.group variants .empty) := rfl
                have staysOpen : (s.append (.group variants .empty)).opened = [] ∨
                    ¬ Closes encoding rest := by
                  rcases staysOpenBefore with noneOpen | unclosed
                  · exact Or.inl (opened_append s _ noneOpen)
                  · exact Or.inr fun closes => unclosed (Closes.group opens group closes)
                rw [grouped, reduced,
                  ih (by omega) staysOpen, collapse_append, Word.append_assoc]
                rfl
          · rw [if_neg opens, step, if_neg opens]
            by_cases closes : c.isBare 0x7d = true ∧ s.opened ≠ []
            · rcases staysOpenBefore with noneOpen | unclosed
              · exact absurd noneOpen closes.2
              · exact absurd (Closes.close chars closes.1) unclosed
            · rw [if_neg closes]
              by_cases separates : c.isBare 0x2c = true ∧ s.opened ≠ []
              · rw [if_pos separates]
                have unclosed : ¬ Closes encoding chars := by
                  rcases staysOpenBefore with noneOpen | unclosed
                  · exact absurd noneOpen separates.2
                  · exact fun rest => unclosed (rest.comma separates.1)
                have joined : collapse (s.join (.more .empty (.last .empty))).base
                    (s.join (.more .empty (.last .empty))).opened =
                      (collapse s.base s.opened).append (.text [0x2c] .empty) := by
                  rcases s with ⟨base, _ | ⟨top, outer⟩⟩
                  · exact absurd rfl separates.2
                  · unfold Frames.join
                    dsimp only
                    rw [collapse, collapse, Variants.literal_join, Word.append_assoc]
                    rfl
                rw [ih shorter (Or.inr unclosed), joined, Word.append_assoc,
                  charBytes_ascii encoding separates.1 (by decide)]
                rfl
              · rw [if_neg separates]
                have staysOpen : (s.append (.text (charBytes encoding c.char) .empty)).opened = [] ∨
                    ¬ Closes encoding chars := by
                  rcases staysOpenBefore with noneOpen | unclosed
                  · exact Or.inl (opened_append s _ noneOpen)
                  · by_cases noneOpen : s.opened = []
                    · exact Or.inl (opened_append s _ noneOpen)
                    · right
                      exact fun rest => unclosed (rest.text (fun bare => closes ⟨bare, noneOpen⟩)
                        (fun bare => separates ⟨bare, noneOpen⟩) opens)
                rw [ih shorter staysOpen, collapse_append, Word.append_assoc]
                rfl

/-- The word of a source, from the stack of what is open at its end. -/
theorem referenceWord_eq (encoding : StringEncoding) (src : Bytes) :
    referenceWord encoding src =
      collapse (run encoding ⟨.empty, []⟩ (inputChars encoding src)).base
        (run encoding ⟨.empty, []⟩ (inputChars encoding src)).opened := by
  have start : (⟨.empty, []⟩ : Frames).opened = [] ∨
      ¬ Closes encoding (inputChars encoding src) := Or.inl rfl
  exact (collapse_run _ (Nat.le_refl _) start).symm

/-! ### The lexer keeps the stack -/

/-- Tokens cut at the braces that are open, put together. -/
def joinPieces (base : List Token) : List (List Token) → List Token
  | [] => base
  | piece :: outer => joinPieces base outer ++ .open 0 0 :: piece

/-- Where the open braces stand. -/
def stackOf (base : List Token) : List (List Token) → List Nat
  | [] => []
  | _ :: outer => (joinPieces base outer).length :: stackOf base outer

/-- The lexer's tokens are those of the stack, up to where texts are cut. -/
def Stands (lexer : Lexer) (s : Frames) : Prop :=
  ∃ base pieces, lexer = ⟨stackOf base pieces, joinPieces base pieces⟩ ∧
    Similar base s.base.tokens ∧
      List.Forall₂ (fun piece (v : Variants) => Similar piece v.tokens) pieces s.opened

theorem appendChar_similar (encoding : StringEncoding) (tokens : List Token) (char : Nat) :
    Similar (appendChar encoding tokens char) (tokens ++ [.text (charBytes encoding char)]) := by
  unfold appendChar
  split
  · rename_i last isText
    obtain ⟨front, rfl⟩ := List.getLast?_eq_some_iff.mp isText
    rw [List.dropLast_concat, List.append_assoc]
    apply Similar.append (Similar.refl front)
    unfold Similar
    exact (consText_consText last (charBytes encoding char) []).symm
  · exact Similar.refl _

/-- Behind an open brace, what stands before it does not matter. -/
theorem appendChar_behind_open (encoding : StringEncoding) (before piece : List Token)
    (char : Nat) :
    appendChar encoding (before ++ .open 0 0 :: piece) char =
      before ++ .open 0 0 :: appendChar encoding piece char := by
  unfold appendChar
  have behind : ∀ tok rest, piece = tok :: rest →
      (before ++ Token.open 0 0 :: piece).getLast? = piece.getLast? := by
    rintro tok rest rfl
    rw [List.getLast?_append, List.getLast?_cons_cons, List.getLast?_cons]
    rfl
  cases last : piece with
  | nil => simp
  | cons tok rest =>
      rw [← last, behind tok rest last]
      split
      · rename_i txt isText
        obtain ⟨front, rfl⟩ := List.getLast?_eq_some_iff.mp isText
        rw [← List.cons_append, ← List.append_assoc, List.dropLast_concat, List.dropLast_concat]
        simp
      · simp

/-- A word put down behind the innermost open brace, or outside of all. -/
theorem Stands.glue {base : List Token} {pieces : List (List Token)} {s : Frames}
    (similarBase : Similar base s.base.tokens)
    (similarPieces : List.Forall₂ (fun piece (v : Variants) => Similar piece v.tokens) pieces
      s.opened) {after : List Token} {word : Word} (similar : Similar after word.tokens) :
    Stands ⟨stackOf base pieces, joinPieces base pieces ++ after⟩ (s.append word) := by
  rcases s with ⟨wordBase, opened⟩
  cases similarPieces with
  | nil =>
      refine ⟨base ++ after, [], rfl, ?_, .nil⟩
      have tokens := Word.tokens_append wordBase word
      unfold Frames.append
      dsimp only
      rw [tokens]
      exact similarBase.append similar
  | @cons piece top outer opened similarPiece similarOuter =>
      refine ⟨base, (piece ++ after) :: outer, ?_, similarBase, .cons ?_ similarOuter⟩
      · simp only [stackOf, joinPieces, List.append_assoc, List.cons_append]
      · rw [Variants.tokens_join]
        exact similarPiece.append similar

theorem bare_iff (c : InputChar) (char : Nat) :
    (!c.escaped) = true ∧ c.char = char ↔ c.isBare char = true := by
  unfold InputChar.isBare
  rw [Bool.and_eq_true, beq_iff_eq]

/-- Every character keeps lexer and stack together. -/
theorem lexer_step {encoding : StringEncoding} {lexer : Lexer} {s : Frames}
    (stands : Stands lexer s) (c : InputChar) :
    Stands (lexer.step encoding c) (s.step encoding c) := by
  obtain ⟨base, pieces, rfl, similarBase, similarPieces⟩ := stands
  have sameStack : stackOf base pieces ≠ [] ↔ s.opened ≠ [] := by
    rcases s with ⟨wordBase, opened⟩
    cases similarPieces <;> simp [stackOf]
  unfold Lexer.step Frames.step
  simp only [← and_assoc, bare_iff]
  by_cases opens : c.isBare 0x7b = true
  · rw [if_pos opens, if_pos opens]
    exact ⟨base, [] :: pieces, rfl, similarBase, .cons (Similar.refl []) similarPieces⟩
  · rw [if_neg opens, if_neg opens]
    by_cases closes : c.isBare 0x7d = true ∧ s.opened ≠ []
    · rw [if_pos ⟨closes.1, sameStack.mpr closes.2⟩, if_pos closes]
      rcases s with ⟨wordBase, opened⟩
      cases similarPieces with
      | nil => exact absurd rfl closes.2
      | @cons piece top outer opened similarPiece similarOuter =>
          have grouped : Similar (.open 0 0 :: (piece ++ [.close]))
              (Word.group top .empty).tokens := by
            rw [Word.tokens, Word.tokens]
            exact (similarPiece.append (Similar.refl [.close])).cons _
          have glued := Stands.glue (s := ⟨wordBase, opened⟩) similarBase similarOuter grouped
          have reduced : Frames.reduce ⟨wordBase, top :: opened⟩ =
              Frames.append ⟨wordBase, opened⟩ (.group top .empty) := rfl
          rw [reduced]
          simpa only [joinPieces, stackOf, List.tail_cons, List.append_assoc,
            List.cons_append] using glued
    · rw [if_neg (fun both => closes ⟨both.1, sameStack.mp both.2⟩), if_neg closes]
      by_cases separates : c.isBare 0x2c = true ∧ s.opened ≠ []
      · rw [if_pos ⟨separates.1, sameStack.mpr separates.2⟩, if_pos separates]
        rcases s with ⟨wordBase, opened⟩
        cases similarPieces with
        | nil => exact absurd rfl separates.2
        | @cons piece top outer opened similarPiece similarOuter =>
            refine ⟨base, (piece ++ [.comma]) :: outer, ?_, similarBase,
              .cons ?_ similarOuter⟩
            · simp only [stackOf, joinPieces, List.append_assoc, List.cons_append]
            · rw [Variants.tokens_join]
              exact similarPiece.append (Similar.refl [.comma])
      · rw [if_neg (fun both => separates ⟨both.1, sameStack.mp both.2⟩), if_neg separates]
        have similarText := appendChar_similar encoding
        rcases s with ⟨wordBase, opened⟩
        cases similarPieces with
        | nil =>
            refine ⟨appendChar encoding base c.char, [], rfl, ?_, .nil⟩
            have tokens := Word.tokens_append wordBase (.text (charBytes encoding c.char) .empty)
            unfold Frames.append
            dsimp only
            rw [tokens]
            exact (similarText base c.char).trans (similarBase.append (Similar.refl _))
        | @cons piece top outer opened similarPiece similarOuter =>
            refine ⟨base, appendChar encoding piece c.char :: outer, ?_, similarBase,
              .cons ?_ similarOuter⟩
            · simp only [stackOf, joinPieces, appendChar_behind_open]
            · rw [Variants.tokens_join]
              exact (similarText piece c.char).trans (similarPiece.append (Similar.refl _))

theorem lexer_run {encoding : StringEncoding} (chars : List InputChar) {lexer : Lexer}
    {s : Frames} (stands : Stands lexer s) :
    Stands (chars.foldl (Lexer.step encoding) lexer) (run encoding s chars) := by
  induction chars generalizing lexer s with
  | nil => exact stands
  | cons c chars ih => exact ih (lexer_step stands c)

/-! ### Unclosed braces become text -/

theorem rollbackBraces_last (before piece : List Token) :
    rollbackBraces (before ++ .open 0 0 :: piece) before.length =
      before ++ .text [0x7b] :: rollbackFrom 0 piece := by
  unfold rollbackBraces
  rw [List.drop_left, List.take_left]
  rfl

/-- Rolling back all open braces, innermost first, leaves the tokens of the collapsed stack. -/
theorem rollback_pieces {base : List Token} {wordBase : Word}
    (similarBase : Similar base wordBase.tokens) {pieces : List (List Token)}
    {opened : List Variants}
    (similarPieces : List.Forall₂ (fun piece (v : Variants) => Similar piece v.tokens) pieces
      opened) {after : List Token} {word : Word} (similar : Similar after word.tokens)
    (shallow : opened ≠ [] → ((collapse wordBase opened).append word).depth ≤ 255) :
    Similar ((stackOf base pieces).foldl rollbackBraces (joinPieces base pieces ++ after))
      ((collapse wordBase opened).append word).tokens := by
  induction similarPieces generalizing after word with
  | nil =>
      rw [collapse, Word.tokens_append]
      exact similarBase.append similar
  | @cons piece top outer opened similarPiece similarOuter ih =>
      have room := shallow (List.cons_ne_nil _ _)
      rw [collapse, Word.append_assoc] at room ⊢
      have depthTop : top.depth ≤ 255 ∧ word.depth ≤ 255 := by
        rw [Word.depth_append, Word.depth_append, Word.depth, Variants.depth_literal] at room
        omega
      rw [stackOf, List.foldl_cons, joinPieces, List.append_assoc, List.cons_append,
        rollbackBraces_last]
      apply ih
      · -- The piece and what was rolled back behind it become text.
        have rolled : Similar (rollbackFrom 0 (piece ++ after))
            (rollbackFrom 0 (top.tokens ++ word.tokens)) :=
          (similarPiece.append similar).rollbackFrom 0
        have wordStays := Word.rollbackFrom_outside word [] depthTop.2
        rw [List.append_nil, rollbackFrom, List.append_nil] at wordStays
        rw [Variants.rollbackFrom_outside top word.tokens depthTop.1, wordStays] at rolled
        rw [Word.append, Word.tokens, Word.tokens_append]
        exact rolled.cons _
      · intro _
        exact room

/-! ### The tokens of a source -/

theorem length_opened_run (encoding : StringEncoding) (chars : List InputChar) (s : Frames) :
    (run encoding s chars).opened.length = unclosedBraces s.opened.length chars := by
  induction chars generalizing s with
  | nil => rfl
  | cons c chars ih =>
      have first : run encoding s (c :: chars) = run encoding (step encoding s c) chars := rfl
      have lengthAppend : ∀ (t : Frames) (word : Word),
          (t.append word).opened.length = t.opened.length := by
        rintro ⟨base, _ | ⟨top, outer⟩⟩ word <;> rfl
      rw [first, ih, unclosedBraces]
      unfold Frames.step
      by_cases opens : c.isBare 0x7b = true
      · rw [if_pos opens, if_pos opens]
        rfl
      · rw [if_neg opens, if_neg opens]
        rcases s with ⟨base, _ | ⟨top, outer⟩⟩
        · rw [if_neg (fun both => both.2 rfl), if_neg (fun both => both.2 rfl), lengthAppend]
          split <;> rfl
        · by_cases closes : c.isBare 0x7d = true
          · rw [if_pos ⟨closes, List.cons_ne_nil _ _⟩, if_pos closes]
            unfold Frames.reduce
            dsimp only
            rw [lengthAppend]
            rfl
          · rw [if_neg (fun both => closes both.1), if_neg closes]
            split
            · rfl
            · rw [lengthAppend]

/-- The lexer gives the tokens of the word a source stands for, with its texts merged, and says
whether its groups are nested. -/
theorem tokenize_eq (encoding : StringEncoding) (src : Bytes)
    (shallow : unclosedBraces 0 (inputChars encoding src) = 0 ∨
      (referenceWord encoding src).depth ≤ 255) :
    tokenize encoding src =
      { tokens := (referenceWord encoding src).merge.tokens ++ [.eof],
        containsNested := decide (referenceWord encoding src).nested } := by
  have start : Stands {} ⟨.empty, []⟩ := ⟨[], [], rfl, Similar.refl [], .nil⟩
  have counted := length_opened_run encoding (inputChars encoding src) ⟨.empty, []⟩
  have reference := referenceWord_eq encoding src
  obtain ⟨base, pieces, lexed, similarBase, similarPieces⟩ :=
    lexer_run (inputChars encoding src) start
  rw [reference] at shallow ⊢
  have room : (run encoding ⟨.empty, []⟩ (inputChars encoding src)).opened ≠ [] →
      ((collapse (run encoding ⟨.empty, []⟩ (inputChars encoding src)).base
        (run encoding ⟨.empty, []⟩ (inputChars encoding src)).opened).append .empty).depth ≤
          255 := by
    intro someOpen
    rw [Word.append_empty]
    rcases shallow with noneOpen | few
    · have nothing := counted.trans noneOpen
      exact absurd (List.length_eq_zero_iff.mp nothing) someOpen
    · exact few
  have rolled := rollback_pieces similarBase similarPieces (Similar.refl []) room
  rw [Word.append_empty, List.append_nil] at rolled
  unfold tokenize
  rw [lexed]
  dsimp only
  rw [flattenTokens_eq]
  dsimp only
  generalize collapse (run encoding ⟨.empty, []⟩ (inputChars encoding src)).base
    (run encoding ⟨.empty, []⟩ (inputChars encoding src)).opened = word at rolled
  have tokens := Word.tokens_merge word
  have nested := Word.opensInside_tokens word 0 []
  rw [List.append_nil, opensInside, Bool.or_false] at nested
  have flag : opensInside 0 ((stackOf base pieces).foldl rollbackBraces (joinPieces base pieces)) =
      decide word.nested := by
    rw [← opensInside_mergeText, rolled, opensInside_mergeText, nested, decide_eq_decide,
      Word.nested]
    omega
  rw [flag, rolled, tokens]

end Bunx.Shell
