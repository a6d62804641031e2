/-
Module: Bunx.Shell.BraceTokens
Purpose: The tokens of a word, and what merging texts, counting braces and rolling back
  unclosed braces do to them.
Trusted boundary: none
Main exports:
  Word.tokens, Word.append, Variants.literal, mergeText, Similar, Word.merge, tokens_merge,
  opensInside_tokens, rollbackFrom_variants, flattenFrom_eq
-/
import Bunx.Shell.BraceWords

namespace Bunx.Shell

mutual

/-- The tokens of a word. -/
def Word.tokens : Word → List Token
  | .empty => []
  | .text txt rest => .text txt :: rest.tokens
  | .group variants rest => .open 0 0 :: (variants.tokens ++ .close :: rest.tokens)

def Variants.tokens : Variants → List Token
  | .last word => word.tokens
  | .more word others => word.tokens ++ .comma :: others.tokens

end

/-- One word behind another. -/
def Word.append : Word → Word → Word
  | .empty, after => after
  | .text txt rest, after => .text txt (rest.append after)
  | .group variants rest, after => .group variants (rest.append after)

@[simp] theorem Word.append_empty : ∀ word : Word, word.append .empty = word
  | .empty => rfl
  | .text txt rest => by rw [Word.append, Word.append_empty rest]
  | .group variants rest => by rw [Word.append, Word.append_empty rest]

theorem Word.append_assoc : ∀ a b c : Word, (a.append b).append c = a.append (b.append c)
  | .empty, _, _ => rfl
  | .text txt rest, b, c => by
      rw [Word.append, Word.append, Word.append, Word.append_assoc rest]
  | .group variants rest, b, c => by
      rw [Word.append, Word.append, Word.append, Word.append_assoc rest]

theorem Word.tokens_append : ∀ a b : Word, (a.append b).tokens = a.tokens ++ b.tokens
  | .empty, _ => rfl
  | .text txt rest, b => by
      rw [Word.append, Word.tokens, Word.tokens, Word.tokens_append rest, List.cons_append]
  | .group variants rest, b => by
      rw [Word.append, Word.tokens, Word.tokens, Word.tokens_append rest, List.cons_append,
        List.append_assoc, List.cons_append]

theorem Word.depth_append : ∀ a b : Word, (a.append b).depth = max a.depth b.depth
  | .empty, b => by simp only [Word.append, Word.depth, Nat.zero_max]
  | .text txt rest, b => by
      rw [Word.append, Word.depth, Word.depth, Word.depth_append rest]
  | .group variants rest, b => by
      rw [Word.append, Word.depth, Word.depth, Word.depth_append rest, Nat.max_assoc]

/-- The variants of a group that is not one: its commas are text. -/
def Variants.literal : Variants → Word
  | .last word => word
  | .more word others => word.append (.text [0x2c] others.literal)

theorem Variants.depth_literal : ∀ variants : Variants, variants.literal.depth = variants.depth
  | .last _ => rfl
  | .more word others => by
      rw [Variants.literal, Word.depth_append, Word.depth, Variants.depth,
        Variants.depth_literal others]

/-! ### Merging texts -/

/-- Text in front of tokens is merged with a text they begin with. -/
def consText (txt : Bytes) : List Token → List Token
  | .text next :: rest => .text (txt ++ next) :: rest
  | tokens => .text txt :: tokens

/-- Adjacent texts are merged. -/
def mergeText : List Token → List Token
  | [] => []
  | .text txt :: rest => consText txt (mergeText rest)
  | tok :: rest => tok :: mergeText rest

def Token.isText : Token → Bool
  | .text _ => true
  | _ => false

theorem consText_consText (a b : Bytes) (tokens : List Token) :
    consText a (consText b tokens) = consText (a ++ b) tokens := by
  unfold consText
  cases tokens with
  | nil => rfl
  | cons tok rest => cases tok <;> simp

theorem consText_of_not_text {tok : Token} (other : tok.isText = false) (txt : Bytes)
    (rest : List Token) : consText txt (tok :: rest) = .text txt :: tok :: rest := by
  cases tok <;> first | rfl | cases other

theorem mergeText_cons {tok : Token} (other : tok.isText = false) (rest : List Token) :
    mergeText (tok :: rest) = tok :: mergeText rest := by
  cases tok <;> first | rfl | cases other

theorem mergeText_consText (txt : Bytes) (tokens after : List Token) :
    mergeText (consText txt tokens ++ after) = consText txt (mergeText (tokens ++ after)) := by
  cases tokens with
  | nil => rfl
  | cons tok rest =>
      cases tok <;> try rfl
      exact (consText_consText _ _ _).symm

theorem mergeText_append_left (tokens after : List Token) :
    mergeText (mergeText tokens ++ after) = mergeText (tokens ++ after) := by
  induction tokens with
  | nil => rfl
  | cons tok rest ih =>
      cases tok with
      | text txt =>
          rw [mergeText, mergeText_consText, ih]
          rfl
      | «open» | comma | close | eof =>
          exact congrArg (_ :: ·) ih

theorem mergeText_mergeText (tokens : List Token) :
    mergeText (mergeText tokens) = mergeText tokens := by
  have merged := mergeText_append_left tokens []
  rwa [List.append_nil, List.append_nil] at merged

theorem mergeText_append_right (tokens after : List Token) :
    mergeText (tokens ++ mergeText after) = mergeText (tokens ++ after) := by
  induction tokens with
  | nil => exact mergeText_mergeText after
  | cons tok rest ih =>
      cases tok with
      | text txt => exact congrArg (consText txt) ih
      | «open» | comma | close | eof => exact congrArg (_ :: ·) ih

/-- A token that is no text keeps the texts on its sides apart. -/
theorem mergeText_split (before : List Token) {tok : Token} (other : tok.isText = false)
    (after : List Token) :
    mergeText (before ++ tok :: after) = mergeText before ++ tok :: mergeText after := by
  induction before with
  | nil => exact mergeText_cons other after
  | cons first rest ih =>
      cases first with
      | text txt =>
          rw [List.cons_append, mergeText, mergeText, ih]
          cases merged : mergeText rest with
          | nil => exact consText_of_not_text other txt _
          | cons second others => cases second <;> rfl
      | «open» | comma | close | eof => exact congrArg (_ :: ·) ih

/-- The same tokens up to where texts are cut. -/
def Similar (a b : List Token) : Prop := mergeText a = mergeText b

namespace Similar

theorem refl (a : List Token) : Similar a a := rfl

theorem symm {a b : List Token} (similar : Similar a b) : Similar b a := Eq.symm similar

theorem trans {a b c : List Token} (first : Similar a b) (second : Similar b c) : Similar a c :=
  Eq.trans first second

theorem append {a a' b b' : List Token} (left : Similar a a') (right : Similar b b') :
    Similar (a ++ b) (a' ++ b') := by
  unfold Similar at *
  rw [← mergeText_append_left, ← mergeText_append_right, left, right, mergeText_append_right,
    mergeText_append_left]

theorem cons {a b : List Token} (tok : Token) (similar : Similar a b) :
    Similar (tok :: a) (tok :: b) := append (refl [tok]) similar

end Similar

/-! ### Merging in words -/

/-- Text in front of a word. -/
def Word.consText (txt : Bytes) : Word → Word
  | .text next rest => .text (txt ++ next) rest
  | word => .text txt word

mutual

def Word.merge : Word → Word
  | .empty => .empty
  | .text txt rest => Word.consText txt rest.merge
  | .group variants rest => .group variants.merge rest.merge

def Variants.merge : Variants → Variants
  | .last word => .last word.merge
  | .more word others => .more word.merge others.merge

end

theorem Word.tokens_consText (txt : Bytes) (word : Word) :
    (Word.consText txt word).tokens = Shell.consText txt word.tokens := by
  cases word <;> rfl

mutual

/-- Merging the texts of a word merges its tokens. -/
theorem Word.tokens_merge : ∀ word : Word, word.merge.tokens = mergeText word.tokens
  | .empty => rfl
  | .text txt rest => by
      rw [Word.merge, Word.tokens_consText, Word.tokens_merge rest]
      rfl
  | .group variants rest => by
      rw [Word.merge, Word.tokens, Word.tokens, Word.tokens_merge rest,
        Variants.tokens_merge variants, mergeText_cons rfl, mergeText_split _ rfl]

theorem Variants.tokens_merge : ∀ variants : Variants,
    variants.merge.tokens = mergeText variants.tokens
  | .last word => Word.tokens_merge word
  | .more word others => by
      rw [Variants.merge, Variants.tokens, Variants.tokens, Word.tokens_merge word,
        Variants.tokens_merge others, mergeText_split _ rfl]

end

theorem Word.expansions_consText (txt : Bytes) (word : Word) :
    (Word.consText txt word).expansions = word.expansions.map (txt ++ ·) := by
  cases word with
  | text next rest =>
      simp only [Word.consText, Word.expansions, List.map_map, Function.comp_def,
        List.append_assoc]
  | empty | group => rfl

mutual

/-- What a word expands to does not depend on where its texts are cut. -/
theorem Word.expansions_merge : ∀ word : Word, word.merge.expansions = word.expansions
  | .empty => rfl
  | .text txt rest => by
      rw [Word.merge, Word.expansions_consText, Word.expansions_merge rest, Word.expansions]
  | .group variants rest => by
      rw [Word.merge, Word.expansions, Word.expansions, Word.expansions_merge rest,
        Variants.expansions_merge variants]

theorem Variants.expansions_merge : ∀ variants : Variants,
    variants.merge.expansions = variants.expansions
  | .last word => Word.expansions_merge word
  | .more word others => by
      rw [Variants.merge, Variants.expansions, Variants.expansions, Word.expansions_merge word,
        Variants.expansions_merge others]

end

theorem Word.groups_consText (txt : Bytes) (word : Word) :
    (Word.consText txt word).groups = word.groups := by
  cases word <;> rfl

theorem Word.depth_consText (txt : Bytes) (word : Word) :
    (Word.consText txt word).depth = word.depth := by
  cases word <;> rfl

theorem Word.noneEndsEmpty_consText (txt : Bytes) (word : Word) :
    (Word.consText txt word).noneEndsEmpty = word.noneEndsEmpty := by
  cases word <;> rfl

theorem Word.isEmpty_merge (word : Word) : word.merge.isEmpty = word.isEmpty := by
  cases word with
  | text txt rest =>
      rw [Word.merge]
      cases rest.merge <;> rfl
  | empty | group => rfl

mutual

theorem Word.groups_merge : ∀ word : Word, word.merge.groups = word.groups
  | .empty => rfl
  | .text txt rest => by
      rw [Word.merge, Word.groups_consText, Word.groups_merge rest, Word.groups]
  | .group variants rest => by
      rw [Word.merge, Word.groups, Word.groups, Word.groups_merge rest,
        Variants.groups_merge variants]

theorem Variants.groups_merge : ∀ variants : Variants, variants.merge.groups = variants.groups
  | .last word => Word.groups_merge word
  | .more word others => by
      rw [Variants.merge, Variants.groups, Variants.groups, Word.groups_merge word,
        Variants.groups_merge others]

end

mutual

theorem Word.depth_merge : ∀ word : Word, word.merge.depth = word.depth
  | .empty => rfl
  | .text txt rest => by
      rw [Word.merge, Word.depth_consText, Word.depth_merge rest, Word.depth]
  | .group variants rest => by
      rw [Word.merge, Word.depth, Word.depth, Word.depth_merge rest,
        Variants.depth_merge variants]

theorem Variants.depth_merge : ∀ variants : Variants, variants.merge.depth = variants.depth
  | .last word => Word.depth_merge word
  | .more word others => by
      rw [Variants.merge, Variants.depth, Variants.depth, Word.depth_merge word,
        Variants.depth_merge others]

end

mutual

theorem Word.noneEndsEmpty_merge : ∀ word : Word, word.merge.noneEndsEmpty = word.noneEndsEmpty
  | .empty => rfl
  | .text txt rest => by
      rw [Word.merge, Word.noneEndsEmpty_consText, Word.noneEndsEmpty_merge rest,
        Word.noneEndsEmpty]
  | .group variants rest => by
      rw [Word.merge, Word.noneEndsEmpty, Word.noneEndsEmpty, Word.noneEndsEmpty_merge rest,
        Variants.noneEndsEmpty_merge variants]

theorem Variants.noneEndsEmpty_merge : ∀ variants : Variants,
    variants.merge.noneEndsEmpty = variants.noneEndsEmpty
  | .last word => by
      rw [Variants.merge, Variants.noneEndsEmpty, Variants.noneEndsEmpty, Word.isEmpty_merge,
        Word.noneEndsEmpty_merge word]
  | .more word others => by
      rw [Variants.merge, Variants.noneEndsEmpty, Variants.noneEndsEmpty,
        Word.noneEndsEmpty_merge word, Variants.noneEndsEmpty_merge others]

end

/-! ### Counting braces -/

/-- Is a brace opened inside another one, of which `count` are open before? -/
def opensInside : Nat → List Token → Bool
  | _, [] => false
  | count, .open _ _ :: rest => count + 1 > 1 || opensInside (count + 1) rest
  | count, .close :: rest => opensInside (count - 1) rest
  | count, _ :: rest => opensInside count rest

@[simp] theorem opensInside_text (count : Nat) (txt : Bytes) (rest : List Token) :
    opensInside count (.text txt :: rest) = opensInside count rest := rfl

@[simp] theorem opensInside_comma (count : Nat) (rest : List Token) :
    opensInside count (.comma :: rest) = opensInside count rest := rfl

theorem opensInside_consText (count : Nat) (txt : Bytes) (tokens : List Token) :
    opensInside count (consText txt tokens) = opensInside count tokens := by
  cases tokens with
  | nil => rfl
  | cons tok rest => cases tok <;> rfl

theorem opensInside_mergeText (count : Nat) (tokens : List Token) :
    opensInside count (mergeText tokens) = opensInside count tokens := by
  induction tokens generalizing count with
  | nil => rfl
  | cons tok rest ih =>
      cases tok with
      | text txt =>
          rw [mergeText, opensInside_consText, ih]
          rfl
      | «open» | comma | close | eof =>
          simp only [mergeText, opensInside, ih]

mutual

/-- A brace is opened inside another one where a word has a group inside a group or its
surroundings are one. -/
theorem Word.opensInside_tokens : ∀ (word : Word) (count : Nat) (after : List Token),
    opensInside count (word.tokens ++ after) =
      (decide (0 < word.depth ∧ 1 < count + word.depth) || opensInside count after)
  | .empty, count, after => by
      simp only [Word.tokens, Word.depth, List.nil_append, Nat.lt_irrefl, false_and,
        decide_false, Bool.false_or]
  | .text txt rest, count, after => by
      rw [Word.tokens, List.cons_append, opensInside_text, Word.opensInside_tokens rest,
        Word.depth]
  | .group variants rest, count, after => by
      rw [Word.tokens, List.cons_append, List.append_assoc, List.cons_append, opensInside,
        Variants.opensInside_tokens variants, opensInside, Nat.add_sub_cancel,
        Word.opensInside_tokens rest, Word.depth]
      rw [Bool.eq_iff_iff]
      simp only [Bool.or_eq_true, decide_eq_true_eq]
      constructor
      · rintro (outer | inner | (later | more))
        · left
          omega
        · left
          omega
        · left
          omega
        · exact Or.inr more
      · rintro (here | more)
        · by_cases outer : count + 1 > 1
          · exact Or.inl outer
          · right
            by_cases inner : 0 < variants.depth ∧ 1 < count + 1 + variants.depth
            · exact Or.inl inner
            · exact Or.inr (Or.inl (by omega))
        · exact Or.inr (Or.inr (Or.inr more))

theorem Variants.opensInside_tokens : ∀ (variants : Variants) (count : Nat)
    (after : List Token),
    opensInside count (variants.tokens ++ after) =
      (decide (0 < variants.depth ∧ 1 < count + variants.depth) || opensInside count after)
  | .last word, count, after => Word.opensInside_tokens word count after
  | .more word others, count, after => by
      rw [Variants.tokens, List.append_assoc, List.cons_append, Word.opensInside_tokens word,
        opensInside_comma, Variants.opensInside_tokens others, Variants.depth, ← Bool.or_assoc,
        ← Bool.decide_or]
      congr 1
      rw [decide_eq_decide]
      omega

end

/-! ### Rolling back -/

@[simp] theorem rollbackFrom_text (braces : Nat) (txt : Bytes) (rest : List Token) :
    rollbackFrom braces (.text txt :: rest) = .text txt :: rollbackFrom braces rest := by
  cases braces <;> rfl

@[simp] theorem rollbackFrom_open (braces idx stop : Nat) (rest : List Token) :
    rollbackFrom braces (.open idx stop :: rest) =
      .open idx stop :: rollbackFrom ((braces + 1) % 256) rest := by
  cases braces <;> rfl

@[simp] theorem rollbackFrom_eof (braces : Nat) (rest : List Token) :
    rollbackFrom braces (.eof :: rest) = .eof :: rollbackFrom braces rest := by
  cases braces <;> rfl

theorem rollbackFrom_close (braces : Nat) (rest : List Token) :
    rollbackFrom (braces + 1) (.close :: rest) = .close :: rollbackFrom braces rest := rfl

theorem rollbackFrom_comma (braces : Nat) (rest : List Token) :
    rollbackFrom (braces + 1) (.comma :: rest) = .comma :: rollbackFrom (braces + 1) rest := rfl

theorem rollbackFrom_comma_outside (rest : List Token) :
    rollbackFrom 0 (.comma :: rest) = .text [0x2c] :: rollbackFrom 0 rest := rfl

theorem rollbackFrom_consText (braces : Nat) (txt : Bytes) (tokens : List Token) :
    mergeText (rollbackFrom braces (consText txt tokens)) =
      consText txt (mergeText (rollbackFrom braces tokens)) := by
  cases tokens with
  | nil => exact congrArg mergeText (rollbackFrom_text braces txt [])
  | cons tok rest =>
      cases tok with
      | text next =>
          rw [consText, rollbackFrom_text, rollbackFrom_text, mergeText, mergeText,
            consText_consText]
      | «open» | comma | close | eof =>
          rw [consText_of_not_text rfl, rollbackFrom_text]
          rfl

/-- Rolling back does not depend on where texts are cut. -/
theorem rollbackFrom_mergeText (braces : Nat) (tokens : List Token) :
    mergeText (rollbackFrom braces (mergeText tokens)) =
      mergeText (rollbackFrom braces tokens) := by
  induction tokens generalizing braces with
  | nil => rfl
  | cons tok rest ih =>
      cases tok with
      | text txt =>
          rw [mergeText, rollbackFrom_consText, ih, rollbackFrom_text]
          rfl
      | «open» idx stop =>
          rw [mergeText_cons rfl, rollbackFrom_open, rollbackFrom_open, mergeText_cons rfl,
            mergeText_cons rfl, ih]
      | eof =>
          rw [mergeText_cons rfl, rollbackFrom_eof, rollbackFrom_eof, mergeText_cons rfl,
            mergeText_cons rfl, ih]
      | comma =>
          cases braces with
          | zero => exact congrArg (consText [0x2c]) (ih 0)
          | succ n => exact congrArg (_ :: ·) (ih (n + 1))
      | close =>
          cases braces with
          | zero => exact congrArg (consText [0x7d]) (ih 0)
          | succ n => exact congrArg (_ :: ·) (ih n)

theorem Similar.rollbackFrom {a b : List Token} (similar : Similar a b) (braces : Nat) :
    Similar (Shell.rollbackFrom braces a) (Shell.rollbackFrom braces b) := by
  unfold Similar at *
  rw [← rollbackFrom_mergeText, similar, rollbackFrom_mergeText]

mutual

/-- Inside a brace nothing is rolled back, as long as the byte that counts braces does not
wrap. -/
theorem Word.rollbackFrom_tokens : ∀ (word : Word) (braces : Nat) (after : List Token),
    braces + 1 + word.depth ≤ 255 →
      rollbackFrom (braces + 1) (word.tokens ++ after) =
        word.tokens ++ rollbackFrom (braces + 1) after
  | .empty, _, _, _ => rfl
  | .text txt rest, braces, after, room => by
      rw [Word.tokens, List.cons_append, rollbackFrom_text,
        Word.rollbackFrom_tokens rest braces after room, List.cons_append]
  | .group variants rest, braces, after, room => by
      rw [Word.depth] at room
      have counted : (braces + 1 + 1) % 256 = braces + 1 + 1 := Nat.mod_eq_of_lt (by omega)
      rw [Word.tokens, List.cons_append, List.append_assoc, rollbackFrom_open, counted,
        Variants.rollbackFrom_tokens variants _ _ (by omega), List.cons_append,
        rollbackFrom_close, Word.rollbackFrom_tokens rest braces after (by omega)]
      simp only [List.cons_append, List.append_assoc]

theorem Variants.rollbackFrom_tokens : ∀ (variants : Variants) (braces : Nat)
    (after : List Token), braces + 1 + variants.depth ≤ 255 →
      rollbackFrom (braces + 1) (variants.tokens ++ after) =
        variants.tokens ++ rollbackFrom (braces + 1) after
  | .last word, braces, after, room => Word.rollbackFrom_tokens word braces after room
  | .more word others, braces, after, room => by
      rw [Variants.depth] at room
      rw [Variants.tokens, List.append_assoc, List.cons_append,
        Word.rollbackFrom_tokens word braces _ (by omega), rollbackFrom_comma,
        Variants.rollbackFrom_tokens others braces after (by omega), List.append_assoc,
        List.cons_append]

end

/-- Outside of braces a word is kept as it is. -/
theorem Word.rollbackFrom_outside : ∀ (word : Word) (after : List Token), word.depth ≤ 255 →
    rollbackFrom 0 (word.tokens ++ after) = word.tokens ++ rollbackFrom 0 after
  | .empty, _, _ => rfl
  | .text txt rest, after, room => by
      rw [Word.tokens, List.cons_append, rollbackFrom_text,
        Word.rollbackFrom_outside rest after room, List.cons_append]
  | .group variants rest, after, room => by
      rw [Word.depth] at room
      rw [Word.tokens, List.cons_append, List.append_assoc, rollbackFrom_open,
        Variants.rollbackFrom_tokens variants 0 _ (by omega), List.cons_append,
        rollbackFrom_close, Word.rollbackFrom_outside rest after (by omega)]
      simp only [List.cons_append, List.append_assoc]

/-- The variants of an unclosed brace are rolled back to text. -/
theorem Variants.rollbackFrom_outside : ∀ (variants : Variants) (after : List Token),
    variants.depth ≤ 255 →
      rollbackFrom 0 (variants.tokens ++ after) =
        variants.literal.tokens ++ rollbackFrom 0 after
  | .last word, after, room => Word.rollbackFrom_outside word after room
  | .more word others, after, room => by
      rw [Variants.depth] at room
      rw [Variants.tokens, List.append_assoc, List.cons_append,
        Word.rollbackFrom_outside word _ (by omega), rollbackFrom_comma_outside,
        Variants.rollbackFrom_outside others after (by omega), Variants.literal,
        Word.tokens_append, Word.tokens, List.append_assoc, List.cons_append]

/-! ### Flattening -/

/-- Flattening merges texts and says whether a brace is opened inside another one. -/
theorem flattenFrom_eq (itok : Token) (rest : List Token) (braceCount : Nat) (nested : Bool) :
    flattenFrom itok rest braceCount nested =
      (mergeText (itok :: rest), nested || opensInside braceCount rest) := by
  induction rest generalizing itok braceCount nested with
  | nil =>
      rw [flattenFrom, opensInside, Bool.or_false]
      cases itok <;> rfl
  | cons jtok rest ih =>
      -- Two texts are merged; any other token stands for itself.
      cases itok with
      | text itxt =>
          cases jtok with
          | text jtxt =>
              rw [flattenFrom, ih, mergeText, mergeText, mergeText,
                consText_consText]
              rfl
          | «open» | comma | close | eof =>
              simp only [flattenFrom, ih, opensInside, mergeText, consText,
                Bool.or_assoc]
      | «open» | comma | close | eof =>
          cases jtok <;>
            simp only [flattenFrom, ih, opensInside, mergeText, Bool.or_assoc]

theorem flattenTokens_eq (tokens : List Token) :
    flattenTokens tokens = (mergeText tokens, opensInside 0 tokens) := by
  cases tokens with
  | nil => rfl
  | cons tok rest =>
      rw [flattenTokens, flattenFrom_eq]
      cases tok <;> rfl

end Bunx.Shell
