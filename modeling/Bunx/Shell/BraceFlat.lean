/-
Module: Bunx.Shell.BraceFlat
Purpose: The flat expansion writes the expansions of a word whose groups are not nested.
Trusted boundary: none
Main exports:
  Word.placed, Word.entries, tableFrom_word, flatAtoms_writes, Word.groups_le_tokens,
  checkBraceGroupCount_tokens, expand_flat
-/
import Bunx.Shell.BraceOutputs
import Bunx.Shell.BraceAmount

namespace Bunx.Shell

/-! ### The expansion table -/

def Variants.count : Variants → Nat
  | .last _ => 1
  | .more _ others => others.count + 1

/-- The tokens of a word outside of groups, its groups with their ranges in a table that has
`filled` entries before. -/
def Word.placed (filled : Nat) : Word → List Token
  | .empty => []
  | .text txt rest => .text txt :: rest.placed filled
  | .group variants rest =>
      .open filled (filled + variants.count) ::
        (variants.tokens ++ .close :: rest.placed (filled + variants.count))

/-- The entries of variants the first of which starts at a token. -/
def Variants.entries (start : Nat) : Variants → List ExpansionVariant
  | .last word => [(start, start + word.tokens.length)]
  | .more word others =>
      (start, start + word.tokens.length) :: others.entries (start + word.tokens.length + 1)

def Word.entries (start : Nat) : Word → List ExpansionVariant
  | .empty => []
  | .text _ rest => rest.entries (start + 1)
  | .group variants rest =>
      variants.entries (start + 1) ++ rest.entries (start + 1 + variants.tokens.length + 1)

theorem Variants.length_entries : ∀ (variants : Variants) (start : Nat),
    (variants.entries start).length = variants.count
  | .last _, _ => rfl
  | .more _ others, _ => congrArg (· + 1) (Variants.length_entries others _)

theorem Word.length_placed : ∀ (word : Word) (filled : Nat),
    (word.placed filled).length = word.tokens.length
  | .empty, _ => rfl
  | .text _ rest, filled => congrArg (· + 1) (Word.length_placed rest filled)
  | .group variants rest, filled => by
      simp only [Word.placed, Word.tokens, List.length_cons, List.length_append,
        Word.length_placed rest]

/-- A word without groups is passed over. -/
theorem tableFrom_plain : ∀ (word : Word) (passed after : List Token)
    (table : List ExpansionVariant) (stack : List BraceState), word.depth = 0 →
      tableFrom passed (word.tokens ++ after) table stack =
        tableFrom (passed ++ word.tokens) after table stack
  | .empty, passed, after, table, stack, _ => by
      rw [Word.tokens, List.append_nil, List.nil_append]
  | .text txt rest, passed, after, table, stack, plain => by
      rw [Word.tokens, List.cons_append, tableFrom, tableFrom_plain rest _ _ _ _ plain,
        List.append_assoc, List.singleton_append]
      all_goals simp
  | .group variants rest, _, _, _, _, plain => by
      rw [Word.depth] at plain
      omega

/-- The variants of a group are entered one by one, the last one at the closing brace. -/
theorem tableFrom_variants : ∀ (variants : Variants) (before inside after : List Token)
    (idx stop : Nat) (table : List ExpansionVariant) (prevTokEnd : Nat) (outer : List BraceState),
      variants.depth = 0 → prevTokEnd + 1 = (before ++ .open idx stop :: inside).length →
      tableFrom (before ++ .open idx stop :: inside) (variants.tokens ++ .close :: after) table
          (⟨before.length, prevTokEnd⟩ :: outer) =
        tableFrom
          (before ++ .open idx (table.length + variants.count) ::
            (inside ++ variants.tokens ++ [.close])) after
          (table ++ variants.entries (prevTokEnd + 1)) outer
  | .last word, before, inside, after, idx, stop, table, prevTokEnd, outer, plain, start => by
      rw [Variants.tokens, tableFrom_plain word _ _ _ _ plain, tableFrom]
      have place : (before ++ .open idx stop :: inside ++ word.tokens).length =
          prevTokEnd + 1 + word.tokens.length := by
        rw [List.length_append, ← start]
      dsimp only
      rw [place]
      have brace : (before ++ Token.open idx stop :: inside ++ word.tokens ++ [.close])[before.length]? =
          some (.open idx stop) := by
        simp
      unfold setStop
      rw [brace]
      simp [Variants.count, Variants.entries]
  | .more word others, before, inside, after, idx, stop, table, prevTokEnd, outer, plain, start => by
      rw [Variants.depth] at plain
      rw [Variants.tokens, List.append_assoc, List.cons_append,
        tableFrom_plain word _ _ _ _ (by omega), tableFrom]
      have place : (before ++ .open idx stop :: inside ++ word.tokens).length =
          prevTokEnd + 1 + word.tokens.length := by
        rw [List.length_append, ← start]
      have next : prevTokEnd + 1 + word.tokens.length + 1 =
          (before ++ Token.open idx stop :: (inside ++ word.tokens ++ [.comma])).length := by
        simp only [List.length_append, List.length_cons, List.length_nil] at place ⊢
        omega
      have more := tableFrom_variants others before (inside ++ word.tokens ++ [.comma]) after idx stop
        (table ++ [(prevTokEnd + 1, prevTokEnd + 1 + word.tokens.length)])
        (prevTokEnd + 1 + word.tokens.length) outer (by omega) next
      dsimp only
      rw [place]
      have shape : before ++ Token.open idx stop :: inside ++ word.tokens ++ [.comma] =
          before ++ Token.open idx stop :: (inside ++ word.tokens ++ [.comma]) := by simp
      have count : (table ++ [(prevTokEnd + 1, prevTokEnd + 1 + word.tokens.length)]).length +
          others.count = table.length + (others.count + 1) := by
        rw [List.length_append, List.length_singleton, Nat.add_assoc, Nat.add_comm 1]
      rw [shape, more, count]
      simp only [Variants.count, Variants.entries, List.append_assoc, List.cons_append,
        List.nil_append]

/-- The table of a word whose groups are not nested. -/
theorem tableFrom_word : ∀ (word : Word) (passed after : List Token)
    (table : List ExpansionVariant), word.depth ≤ 1 →
      tableFrom passed (word.tokens ++ after) table [] =
        tableFrom (passed ++ word.placed table.length) after
          (table ++ word.entries passed.length) []
  | .empty, passed, after, table, _ => by
      simp only [Word.tokens, Word.placed, Word.entries, List.append_nil, List.nil_append]
  | .text txt rest, passed, after, table, flat => by
      rw [Word.tokens, List.cons_append, tableFrom, tableFrom_word rest _ _ _ flat, Word.placed,
        Word.entries, List.append_assoc, List.singleton_append, List.length_append,
        List.length_singleton]
      all_goals simp
  | .group variants rest, passed, after, table, flat => by
      rw [Word.depth] at flat
      have start : passed.length + 1 = (passed ++ [Token.open table.length 0]).length := by simp
      have entered := tableFrom_variants variants passed [] (rest.tokens ++ after) table.length 0
        table passed.length [] (by omega) start
      rw [Word.tokens, List.cons_append, List.append_assoc, List.cons_append, tableFrom, entered,
        tableFrom_word rest _ _ _ (by omega)]
      rw [List.length_append, Variants.length_entries]
      simp only [Word.placed, Word.entries, List.append_assoc, List.cons_append, List.nil_append,
        List.length_append, List.length_cons, List.length_nil]
      congr 4
      omega

/-! ### The expansion -/

/-- A word without groups is one text. -/
theorem flatAtoms_plain (tokens : List Token) (table : List ExpansionVariant) (fuel stop : Nat) :
    ∀ word : Word, word.depth = 0 →
      ∃ txt, word.expansions = [txt] ∧
        Writes (fun key s => flatAtoms table (expandFlat tokens table fuel) key stop word.tokens s)
          [txt]
  | .empty, _ => ⟨[], rfl, Writes.stop⟩
  | .text txt rest, plain => by
      obtain ⟨next, single, writes⟩ := flatAtoms_plain tokens table fuel stop rest plain
      refine ⟨txt ++ next, ?_, writes.text txt⟩
      rw [Word.expansions, single]
      rfl
  | .group variants rest, plain => by
      rw [Word.depth] at plain
      omega

/-- A range of tokens is expanded as the loop goes over it. -/
theorem expandFlat_range {table : List ExpansionVariant} {fuel : Nat}
    {before range after : List Token} {words : List Bytes} (someToken : range ++ after ≠ [])
    (writes : Writes
      (fun key s => flatAtoms table (expandFlat (before ++ (range ++ after)) table fuel) key
        (before.length + range.length) range s)
      words) :
    Writes
      (fun key s => expandFlat (before ++ (range ++ after)) table (fuel + 1) key before.length
        (before.length + range.length) s)
      words := by
  intro written first room fits small
  have total : (before ++ (range ++ after)).length =
      before.length + (range.length + after.length) := by
    rw [List.length_append, List.length_append]
  have posRange : 0 < range.length + after.length := by
    rw [← List.length_append]
    exact List.length_pos_iff.mpr someToken
  have slice : ((before ++ (range ++ after)).take (before.length + range.length)).drop
      before.length = range := by
    rw [List.take_length_add_append, List.take_left, List.drop_left]
  dsimp only
  rw [expandFlat, if_neg (by omega), if_neg (by omega), slice]
  exact writes written first room fits small

/-- Each variant of a group that holds no other is one text. -/
theorem expandFlat_variants (table : List ExpansionVariant) (fuel : Nat) (after : List Token) :
    ∀ (variants : Variants) (before : List Token), variants.depth = 0 →
      List.Forall₂
        (fun (entry : ExpansionVariant) (txt : Bytes) =>
          Writes
            (fun key s => expandFlat (before ++ (variants.tokens ++ .close :: after)) table
              (fuel + 1) key entry.1 entry.2 s)
            [txt])
        (variants.entries before.length) variants.expansions
  | .last word, before, plain => by
      obtain ⟨txt, single, writes⟩ := flatAtoms_plain
        (before ++ (word.tokens ++ .close :: after)) table fuel
        (before.length + word.tokens.length) word plain
      rw [Variants.entries, Variants.expansions, Variants.tokens, single]
      refine List.Forall₂.cons ?_ List.Forall₂.nil
      exact expandFlat_range (List.append_ne_nil_of_right_ne_nil _ (List.cons_ne_nil _ _)) writes
  | .more word others, before, plain => by
      rw [Variants.depth] at plain
      have behind : Variants.tokens (.more word others) ++ .close :: after =
          word.tokens ++ (.comma :: (others.tokens ++ .close :: after)) := by
        rw [Variants.tokens, List.append_assoc, List.cons_append]
      have next : before ++ (word.tokens ++ (.comma :: (others.tokens ++ .close :: after))) =
          (before ++ word.tokens ++ [.comma]) ++ (others.tokens ++ .close :: after) := by
        simp only [List.append_assoc, List.singleton_append]
      obtain ⟨txt, single, writes⟩ := flatAtoms_plain
        (before ++ (word.tokens ++ (.comma :: (others.tokens ++ .close :: after)))) table fuel
        (before.length + word.tokens.length) word (by omega)
      have rest := expandFlat_variants table fuel after others (before ++ word.tokens ++ [.comma])
        (by omega)
      rw [← next, List.length_append, List.length_append, List.length_singleton] at rest
      rw [Variants.entries, Variants.expansions, behind, single]
      refine List.Forall₂.cons ?_ rest
      exact expandFlat_range (List.append_ne_nil_of_right_ne_nil _ (List.cons_ne_nil _ _)) writes

/-- The last variant of a group ends where the group closes. -/
theorem Variants.getLast?_entries : ∀ (variants : Variants) (start : Nat),
    ∃ first, (variants.entries start).getLast? = some (first, start + variants.tokens.length)
  | .last word, start => ⟨start, rfl⟩
  | .more word others, start => by
      obtain ⟨first, last⟩ := Variants.getLast?_entries others (start + word.tokens.length + 1)
      refine ⟨first, ?_⟩
      rw [Variants.entries, List.getLast?_cons, last, Variants.tokens]
      simp only [List.length_append, List.length_cons, Option.getD_some, Option.some.injEq,
        Prod.mk.injEq, true_and]
      omega

/-- At a group the loop goes over its variants, each of them with what follows the group. -/
theorem flatAtoms_open {table entries others : List ExpansionVariant}
    {call : Nat → Nat → Nat → Outputs → Except ParserError Outputs} {key stop first close : Nat}
    (last : entries.getLast? = some (first, close)) (behind : List Token) (s : Outputs) :
    flatAtoms (table ++ entries ++ others) call key stop
        (.open table.length (table.length + entries.length) :: behind) s =
      match s.1[key]? with
      | none => .error .crash
      | some before =>
          forVariants
            (fun variant key s =>
              match call key variant.1 variant.2 s with
              | .error e => .error e
              | .ok s => call key close stop s)
            key before true entries s := by
  have slice : ((table ++ entries ++ others).take (table.length + entries.length)).drop
      table.length = entries := by
    rw [List.append_assoc, List.take_length_add_append, List.take_left, List.drop_left]
  have inside : ¬(table.length > table.length + entries.length ∨
      table.length + entries.length > (table ++ entries ++ others).length) := by
    rw [List.length_append, List.length_append]
    omega
  rw [flatAtoms, if_neg inside]
  dsimp only
  rw [slice, last]
  cases s.1[key]? with
  | none => rfl
  | some before => rfl

/-- The loop over the tokens of a word, of which the table holds the variants. -/
theorem flatAtoms_writes : ∀ (word : Word) (fuel : Nat) (before : List Token)
    (table : List ExpansionVariant), word.depth ≤ 1 → word.groups ≤ fuel →
      Writes
        (fun key s =>
          flatAtoms (table ++ word.entries before.length)
            (expandFlat (before ++ (word.placed table.length ++ [Token.eof]))
              (table ++ word.entries before.length) fuel)
            key (before ++ (word.placed table.length ++ [Token.eof])).length
            (word.placed table.length ++ [Token.eof]) s)
        word.expansions
  | .empty, _, _, _, _, _ => Writes.stop
  | .text txt rest, fuel, before, table, flat, enough => by
      have writes := flatAtoms_writes rest fuel (before ++ [.text txt]) table flat enough
      rw [List.length_append, List.length_singleton, List.append_assoc,
        List.singleton_append] at writes
      exact writes.text txt
  | .group variants rest, fuel, before, table, flat, enough => by
      rw [Word.depth] at flat
      rw [Word.groups] at enough
      obtain ⟨fuel, rfl⟩ : ∃ n, fuel = n + 1 := ⟨fuel - 1, by omega⟩
      let opening := Token.open table.length (table.length + variants.count)
      let entries := variants.entries (before.length + 1)
      let behind := rest.placed (table ++ entries).length ++ [Token.eof]
      let all := table ++ entries ++
        rest.entries (before.length + 1 + variants.tokens.length + 1)
      have count : table.length + variants.count = (table ++ entries).length := by
        rw [List.length_append, Variants.length_entries]
      have closing : (before ++ opening :: variants.tokens).length =
          before.length + 1 + variants.tokens.length := by
        rw [List.length_append, List.length_cons, Nat.add_assoc, Nat.add_comm 1]
      have assoc : before ++ opening :: (variants.tokens ++ .close :: behind) =
          (before ++ opening :: variants.tokens) ++ (.close :: behind ++ []) := by simp
      have stop : (before ++ opening :: (variants.tokens ++ .close :: behind)).length =
          (before ++ opening :: variants.tokens).length + (Token.close :: behind).length := by
        rw [assoc, List.length_append, List.append_nil]
      -- From the closing brace on, the rest of the word is written.
      have tailWrites : Writes
          (fun key s => expandFlat (before ++ opening :: (variants.tokens ++ .close :: behind)) all
            (fuel + 1) key (before.length + 1 + variants.tokens.length)
            (before ++ opening :: (variants.tokens ++ .close :: behind)).length s)
          rest.expansions := by
        have writes := flatAtoms_writes rest fuel
          (before ++ opening :: variants.tokens ++ [.close]) (table ++ entries)
          (by omega) (by omega)
        have same : (before ++ opening :: variants.tokens ++ [.close]) ++ behind =
            before ++ opening :: (variants.tokens ++ .close :: behind) := by simp
        rw [same, stop, List.length_append, List.length_singleton, closing, assoc] at writes
        have ranged := @expandFlat_range all fuel (before ++ opening :: variants.tokens)
          (.close :: behind) [] rest.expansions (by simp)
        rw [closing] at ranged
        rw [stop, closing, assoc]
        exact ranged writes
      have someRest : rest.expansions ≠ [] := List.length_pos_iff.mp rest.expansions_length_pos
      have someEntry : entries ≠ [] := by
        intro none
        have counted := Variants.length_entries variants (before.length + 1)
        rw [show variants.entries (before.length + 1) = [] from none] at counted
        cases variants <;> cases counted
      have variantWrites := expandFlat_variants all fuel behind variants (before ++ [opening])
        (by omega)
      rw [List.length_append, List.length_singleton, List.append_assoc, List.singleton_append]
        at variantWrites
      -- Each variant is followed by the rest of the word.
      let call := expandFlat (before ++ opening :: (variants.tokens ++ .close :: behind)) all
        (fuel + 1)
      have bothWrite : List.Forall₂
          (fun (entry : ExpansionVariant) words =>
            words ≠ [] ∧
              Writes
                (fun key s =>
                  match call key entry.1 entry.2 s with
                  | .error e => .error e
                  | .ok s => call key (before.length + 1 + variants.tokens.length)
                      (before ++ opening :: (variants.tokens ++ .close :: behind)).length s)
                words)
          entries (variants.expansions.map fun txt => rest.expansions.map (txt ++ ·)) := by
        apply List.forall₂_map_right_iff.mpr
        apply variantWrites.imp
        intro entry txt writes
        exact ⟨fun none => someRest (List.map_eq_nil_iff.mp none), writes.andThen tailWrites⟩
      have groupWrites := forVariants_writes someEntry bothWrite
      rw [← List.flatMap_def] at groupWrites
      obtain ⟨_, last⟩ := Variants.getLast?_entries variants (before.length + 1)
      have placed : (Word.group variants rest).placed table.length ++ [Token.eof] =
          opening :: (variants.tokens ++ .close :: behind) := by
        rw [Word.placed, List.cons_append, List.append_assoc, List.cons_append]
        exact congrArg
          (fun n => opening :: (variants.tokens ++ .close :: (rest.placed n ++ [Token.eof]))) count
      have built : table ++ (Word.group variants rest).entries before.length = all :=
        (List.append_assoc _ _ _).symm
      rw [placed, built]
      intro written first room fits small
      have entered := @flatAtoms_open table entries
        (rest.entries (before.length + 1 + variants.tokens.length + 1)) call written.length
        (before ++ opening :: (variants.tokens ++ .close :: behind)).length _ _ last
        (variants.tokens ++ .close :: behind)
      rw [Variants.length_entries] at entered
      dsimp only
      rw [entered]
      exact groupWrites written first room fits small

/-! ### The whole expansion -/

mutual

/-- A group takes two tokens at least. -/
theorem Word.groups_le_tokens : ∀ word : Word, 2 * word.groups ≤ word.tokens.length
  | .empty => Nat.le_refl 0
  | .text _ rest => Nat.le_succ_of_le (Word.groups_le_tokens rest)
  | .group variants rest => by
      have inside := Variants.groups_le_tokens variants
      have outside := Word.groups_le_tokens rest
      rw [Word.groups, Word.tokens, List.length_cons, List.length_append, List.length_cons]
      omega

theorem Variants.groups_le_tokens :
    ∀ variants : Variants, 2 * variants.groups ≤ variants.tokens.length
  | .last word => Word.groups_le_tokens word
  | .more word others => by
      have inside := Word.groups_le_tokens word
      have outside := Variants.groups_le_tokens others
      rw [Variants.groups, Variants.tokens, List.length_append, List.length_cons]
      omega

end

mutual

/-- The opening braces among the tokens are the groups. -/
theorem Word.countP_tokens : ∀ word : Word, word.tokens.countP Token.isOpen = word.groups
  | .empty => rfl
  | .text _ rest => by
      rw [Word.tokens, List.countP_cons, Word.countP_tokens rest]
      rfl
  | .group variants rest => by
      rw [Word.tokens, List.countP_cons, List.countP_append, List.countP_cons,
        Variants.countP_tokens variants, Word.countP_tokens rest, Word.groups]
      simp only [Token.isOpen, Bool.false_eq_true, if_false, if_true]
      omega

theorem Variants.countP_tokens :
    ∀ variants : Variants, variants.tokens.countP Token.isOpen = variants.groups
  | .last word => Word.countP_tokens word
  | .more word others => by
      rw [Variants.tokens, List.countP_append, List.countP_cons, Word.countP_tokens word,
        Variants.countP_tokens others, Variants.groups]
      rfl

end

/-- With at most 256 groups the count of braces is passed. -/
theorem checkBraceGroupCount_tokens {word : Word} (fewGroups : word.groups ≤ 256) :
    checkBraceGroupCount (word.tokens ++ [.eof]) = .ok () := by
  have count : (word.tokens ++ [Token.eof]).countP Token.isOpen = word.groups := by
    rw [List.countP_append, Word.countP_tokens]
    rfl
  unfold checkBraceGroupCount
  rw [count, if_neg (Nat.not_lt.mpr fewGroups)]

/-- A word whose groups are not nested is expanded. -/
theorem expand_flat {word : Word} (flat : word.depth ≤ 1) (fewGroups : word.groups ≤ 256)
    (fewTokens : word.tokens.length + 1 ≤ 65535) (fewWords : word.expansions.length ≤ 65535) :
    expand (word.tokens ++ [.eof]) (List.replicate word.expansions.length []) false =
      .ok word.expansions := by
  have built : buildExpansionTable (word.tokens ++ [.eof]) =
      .ok (word.placed 0 ++ [.eof], word.entries 0) := by
    unfold buildExpansionTable
    rw [if_neg (by rw [List.length_append, List.length_singleton]; omega),
      tableFrom_word word [] [.eof] [] flat]
    rfl
  have enough : word.groups ≤ (word.placed 0 ++ [Token.eof]).length := by
    have counted := word.groups_le_tokens
    rw [List.length_append, Word.length_placed]
    omega
  have ranged := @expandFlat_range (word.entries 0) (word.placed 0 ++ [Token.eof]).length []
    (word.placed 0 ++ [.eof]) [] word.expansions (by simp)
  rw [List.length_nil, Nat.zero_add, List.nil_append, List.append_nil] at ranged
  have writes := flatAtoms_writes word _ [] [] flat enough
  unfold expand
  rw [checkBraceGroupCount_tokens fewGroups]
  dsimp only
  rw [if_pos (by decide), built]
  exact (ranged writes).outputs (List.length_pos_iff.mp word.expansions_length_pos) fewWords

end Bunx.Shell
