/-
Module: Bunx.Shell.BraceNested
Purpose: The parser gives back the tree of a word, and the nested expansion writes the
  expansions of that word, through every parent that goes on behind a group.
Trusted boundary: none
Main exports:
  Word.atoms, Variants.parsed, parseVariant_tokens, parse_tokens, Word.narrow, combine,
  expandNested_writes, expand_nested
-/
import Bunx.Shell.BraceFlat

namespace Bunx.Shell

/-! ### The tree of a word -/

mutual

def Word.atoms : Word → List Atom
  | .empty => []
  | .text txt rest => .text txt :: rest.atoms
  | .group variants rest => .expansion variants.parsed :: rest.atoms

def Variants.parsed : Variants → List Group
  | .last word => [Group.ofAtoms word.atoms]
  | .more word others => Group.ofAtoms word.atoms :: others.parsed

end

/-- What ends a variant: the closing brace when it is the last. -/
def separator (isLast : Bool) : Token := if isLast then .close else .comma

theorem parseVariant_separator (fuel : Nat) (isLast : Bool) (after : List Token) :
    Parser.parseVariant (fuel + 1) (separator isLast :: after) = .ok ([], isLast, after) := by
  cases isLast <;> rfl

theorem parseVariant_text (fuel : Nat) (txt : Bytes) (rest : List Token) :
    Parser.parseVariant (fuel + 2) (.text txt :: rest) =
      match Parser.parseVariant (fuel + 1) rest with
      | .error e => .error e
      | .ok (atoms, close, rest) => .ok (.text txt :: atoms, close, rest) := rfl

theorem parseAtom_open (fuel idx stop : Nat) (rest : List Token) :
    Parser.parseAtom (fuel + 1) (.open idx stop :: rest) =
      match Parser.parseExpansion fuel rest with
      | .error e => .error e
      | .ok (variants, rest) => .ok (some (.expansion variants), rest) := rfl

theorem parseVariant_open (fuel idx stop : Nat) (rest : List Token) :
    Parser.parseVariant (fuel + 1) (.open idx stop :: rest) =
      match Parser.parseAtom fuel (.open idx stop :: rest) with
      | .error e => .error e
      | .ok (none, rest) => .ok ([], false, rest)
      | .ok (some atom, rest) =>
          match Parser.parseVariant fuel rest with
          | .error e => .error e
          | .ok (atoms, close, rest) => .ok (atom :: atoms, close, rest) := rfl

/-- A group that does not end in an empty variant does not begin with its closing brace. -/
theorem matchEnd_variants {variants : Variants} (full : variants.noneEndsEmpty = true)
    (after : List Token) : Parser.matchEnd (variants.tokens ++ after) = none := by
  cases variants with
  | last word =>
      cases word with
      | empty => cases full
      | text txt rest => rfl
      | group variants rest => rfl
  | more word others =>
      cases word with
      | empty => rfl
      | text txt rest => rfl
      | group variants rest => rfl

mutual

/-- The atoms of a variant are read up to its separator. -/
theorem parseVariant_tokens : ∀ (word : Word) (fuel : Nat) (isLast : Bool) (after : List Token),
    word.noneEndsEmpty = true → 3 * word.tokens.length + 1 ≤ fuel →
      Parser.parseVariant fuel (word.tokens ++ separator isLast :: after) =
        .ok (word.atoms, isLast, after)
  | .empty, fuel, isLast, after, _, enough => by
      obtain ⟨fuel, rfl⟩ : ∃ n, fuel = n + 1 := ⟨fuel - 1, by omega⟩
      exact parseVariant_separator fuel isLast after
  | .text txt rest, fuel, isLast, after, full, enough => by
      rw [Word.tokens, List.length_cons] at enough
      obtain ⟨fuel, rfl⟩ : ∃ n, fuel = n + 2 := ⟨fuel - 2, by omega⟩
      rw [Word.tokens, List.cons_append, parseVariant_text,
        parseVariant_tokens rest _ isLast after full (by omega)]
      rfl
  | .group variants rest, fuel, isLast, after, full, enough => by
      rw [Word.noneEndsEmpty, Bool.and_eq_true] at full
      rw [Word.tokens, List.length_cons, List.length_append, List.length_cons] at enough
      obtain ⟨fuel, rfl⟩ : ∃ n, fuel = n + 2 := ⟨fuel - 2, by omega⟩
      rw [Word.tokens, List.cons_append, List.append_assoc, List.cons_append, parseVariant_open,
        parseAtom_open, parseExpansion_tokens variants _ _ full.1 (by omega)]
      dsimp only
      rw [parseVariant_tokens rest _ isLast after full.2 (by omega)]
      rfl

/-- The variants of a group are read up to its closing brace. -/
theorem parseExpansion_tokens : ∀ (variants : Variants) (fuel : Nat) (after : List Token),
    variants.noneEndsEmpty = true → 3 * variants.tokens.length + 2 ≤ fuel →
      Parser.parseExpansion fuel (variants.tokens ++ .close :: after) =
        .ok (variants.parsed, after)
  | .last word, fuel, after, full, enough => by
      obtain ⟨fuel, rfl⟩ : ∃ n, fuel = n + 1 := ⟨fuel - 1, by omega⟩
      rw [Parser.parseExpansion, matchEnd_variants full]
      rw [Variants.noneEndsEmpty, Bool.and_eq_true] at full
      rw [Variants.tokens] at enough ⊢
      have read := parseVariant_tokens word fuel true after full.2 (by omega)
      dsimp only
      rw [show Token.close = separator true from rfl, read]
      rfl
  | .more word others, fuel, after, full, enough => by
      obtain ⟨fuel, rfl⟩ : ∃ n, fuel = n + 1 := ⟨fuel - 1, by omega⟩
      rw [Parser.parseExpansion, matchEnd_variants full]
      rw [Variants.noneEndsEmpty, Bool.and_eq_true] at full
      rw [Variants.tokens, List.length_append, List.length_cons] at enough
      have read := parseVariant_tokens word fuel false (others.tokens ++ .close :: after) full.1
        (by omega)
      rw [Variants.tokens, List.append_assoc, List.cons_append]
      dsimp only
      rw [show Token.comma = separator false from rfl, read]
      dsimp only
      rw [if_neg Bool.false_ne_true, parseExpansion_tokens others _ _ full.2 (by omega)]
      rfl

end

/-- The loop of the parser reads a whole word. -/
theorem parseAtoms_tokens : ∀ (word : Word) (fuel : Nat),
    word.noneEndsEmpty = true → 3 * word.tokens.length + 1 ≤ fuel →
      Parser.parseAtoms fuel (word.tokens ++ [.eof]) = .ok word.atoms
  | .empty, fuel, _, enough => by
      obtain ⟨fuel, rfl⟩ : ∃ n, fuel = n + 1 := ⟨fuel - 1, by omega⟩
      rfl
  | .text txt rest, fuel, full, enough => by
      rw [Word.tokens, List.length_cons] at enough
      obtain ⟨fuel, rfl⟩ : ∃ n, fuel = n + 2 := ⟨fuel - 2, by omega⟩
      have read := parseAtoms_tokens rest (fuel + 1) full (by omega)
      rw [Word.tokens, List.cons_append, Parser.parseAtoms]
      · rw [Parser.parseAtom]
        dsimp only
        rw [read]
        rfl
      · intro tail ends
        cases ends
  | .group variants rest, fuel, full, enough => by
      rw [Word.noneEndsEmpty, Bool.and_eq_true] at full
      rw [Word.tokens, List.length_cons, List.length_append, List.length_cons] at enough
      obtain ⟨fuel, rfl⟩ : ∃ n, fuel = n + 2 := ⟨fuel - 2, by omega⟩
      have read := parseAtoms_tokens rest (fuel + 1) full.2 (by omega)
      rw [Word.tokens, List.cons_append, List.append_assoc, List.cons_append, Parser.parseAtoms]
      · rw [parseAtom_open, parseExpansion_tokens variants _ _ full.1 (by omega)]
        dsimp only
        rw [read]
        rfl
      · intro tail ends
        cases ends

theorem parse_tokens {word : Word} (full : word.noneEndsEmpty = true)
    (fewGroups : word.groups ≤ 256) :
    Parser.parse (word.tokens ++ [.eof]) = .ok (Group.ofAtoms word.atoms) := by
  have enough : 3 * word.tokens.length + 1 ≤ 3 * (word.tokens ++ [Token.eof]).length + 3 := by
    rw [List.length_append]
    omega
  unfold Parser.parse
  rw [checkBraceGroupCount_tokens fewGroups]
  dsimp only
  rw [parseAtoms_tokens word _ full enough]

/-! ### Narrow words -/

mutual

/-- The atoms of every variant have indices of 16 bits. -/
def Word.narrow : Word → Prop
  | .empty => True
  | .text _ rest => rest.narrow
  | .group variants rest => variants.narrow ∧ rest.narrow

def Variants.narrow : Variants → Prop
  | .last word => word.atoms.length ≤ 65536 ∧ word.narrow
  | .more word others => (word.atoms.length ≤ 65536 ∧ word.narrow) ∧ others.narrow

end

def Word.startsWithText : Word → Bool
  | .text _ _ => true
  | _ => false

/-- Between two groups of a merged word there is one text at most. -/
theorem length_atoms_merge (word : Word) :
    word.merge.atoms.length ≤
      2 * word.groups + (if word.merge.startsWithText then 1 else 0) := by
  cases word with
  | empty => exact Nat.le_refl 0
  | text txt rest =>
      have bound := length_atoms_merge rest
      rw [Word.merge]
      cases merged : rest.merge with
      | empty =>
          rw [merged] at bound
          exact Nat.le_add_left 1 _
      | text next after =>
          rw [merged] at bound
          exact bound
      | group variants after =>
          rw [merged] at bound
          exact Nat.succ_le_succ bound
  | group variants rest =>
      have bound := length_atoms_merge rest
      have cut : (if rest.merge.startsWithText then 1 else 0) ≤ 1 := by split <;> decide
      rw [Word.merge, Word.atoms, List.length_cons, Word.groups]
      omega

theorem narrow_consText {txt : Bytes} {word : Word} (narrow : word.narrow) :
    (Word.consText txt word).narrow := by
  cases word with
  | empty => trivial
  | text next rest => exact narrow
  | group variants rest => exact narrow

mutual

/-- A merged word with few groups is narrow. -/
theorem Word.narrow_merge : ∀ word : Word, word.groups ≤ 256 → word.merge.narrow
  | .empty, _ => trivial
  | .text _ rest, fewGroups => narrow_consText (Word.narrow_merge rest fewGroups)
  | .group variants rest, fewGroups => by
      rw [Word.groups] at fewGroups
      exact ⟨Variants.narrow_merge variants (by omega), Word.narrow_merge rest (by omega)⟩

theorem Variants.narrow_merge : ∀ variants : Variants, variants.groups ≤ 256 →
    variants.merge.narrow
  | .last word, fewGroups => by
      have bound := length_atoms_merge word
      have cut : (if word.merge.startsWithText then 1 else 0) ≤ 1 := by split <;> decide
      rw [Variants.groups] at fewGroups
      exact ⟨by omega, Word.narrow_merge word fewGroups⟩
  | .more word others, fewGroups => by
      have bound := length_atoms_merge word
      have cut : (if word.merge.startsWithText then 1 else 0) ≤ 1 := by split <;> decide
      rw [Variants.groups] at fewGroups
      exact ⟨⟨by omega, Word.narrow_merge word (by omega)⟩,
        Variants.narrow_merge others (by omega)⟩

end

/-! ### The nested expansion -/

def Variants.words : Variants → List Word
  | .last word => [word]
  | .more word others => word :: others.words

theorem Variants.parsed_eq (variants : Variants) :
    variants.parsed = variants.words.map fun word => Group.ofAtoms word.atoms := by
  cases variants with
  | last word => rfl
  | more word others =>
      rw [Variants.parsed, Variants.words, List.map_cons, Variants.parsed_eq others]

theorem Variants.expansions_eq (variants : Variants) :
    variants.expansions = variants.words.flatMap Word.expansions := by
  cases variants with
  | last word =>
      rw [Variants.expansions, Variants.words, List.flatMap_singleton]
  | more word others =>
      rw [Variants.expansions, Variants.words, List.flatMap_cons, Variants.expansions_eq others]

theorem Variants.groups_words : ∀ (variants : Variants), ∀ word ∈ variants.words,
    word.groups ≤ variants.groups
  | .last word, found, member => by
      rw [List.mem_singleton.mp member]
      exact Nat.le_refl _
  | .more word others, found, member => by
      rw [Variants.groups]
      rcases List.mem_cons.mp member with same | behind
      · rw [same]
        exact Nat.le_add_right _ _
      · exact Nat.le_trans (Variants.groups_words others found behind) (Nat.le_add_left _ _)

theorem Variants.narrow_words : ∀ (variants : Variants), variants.narrow →
    ∀ word ∈ variants.words, word.atoms.length ≤ 65536 ∧ word.narrow
  | .last word, narrow, found, member => by
      rw [List.mem_singleton.mp member]
      exact narrow
  | .more word others, narrow, found, member => by
      rcases List.mem_cons.mp member with same | behind
      · rw [same]
        exact narrow.1
      · exact Variants.narrow_words others narrow.2 found behind

/-- What words one after another expand to. -/
def combine : List Word → List Bytes
  | [] => [[]]
  | word :: chain => word.expansions.flatMap fun txt => (combine chain).map (txt ++ ·)

theorem combine_empty (chain : List Word) : combine (.empty :: chain) = combine chain := by
  simp [combine, Word.expansions]

theorem combine_text (txt : Bytes) (rest : Word) (chain : List Word) :
    combine (.text txt rest :: chain) = (combine (rest :: chain)).map (txt ++ ·) := by
  simp [combine, Word.expansions, List.flatMap_map, List.map_flatMap, Function.comp_def]

theorem combine_group (variants : Variants) (rest : Word) (chain : List Word) :
    combine (.group variants rest :: chain) =
      (variants.words.map fun word => combine (word :: rest :: chain)).flatten := by
  rw [← List.flatMap_def]
  simp only [combine, Word.expansions, Variants.expansions_eq, List.flatMap_assoc,
    List.flatMap_map, List.map_flatMap, List.map_map, Function.comp_def, List.append_assoc]

theorem combine_ne_nil : ∀ chain : List Word, combine chain ≠ []
  | [] => List.cons_ne_nil _ _
  | word :: chain => by
      intro none
      rw [combine, List.flatMap_eq_nil_iff] at none
      obtain ⟨txt, some⟩ := List.exists_mem_of_length_pos word.expansions_length_pos
      exact combine_ne_nil chain (List.map_eq_nil_iff.mp (none txt some))

/-- The calls that expanding words one after another takes. -/
def cost : List Word → Nat
  | [] => 0
  | word :: chain => 2 * word.groups + 1 + cost chain

/-- What happens behind the last atom of a group. -/
def goUp (fuel : Nat) (parents : List (Group × Nat)) (outKey : Nat) (s : Outputs) :
    Except ParserError Outputs :=
  match parents with
  | [] => .ok s
  | (parent, next) :: others => expandNested fuel parent others outKey next s

/-- What happens at a variant of the atom at an index of a group. -/
def goDown (fuel : Nat) (root : Group) (parents : List (Group × Nat)) (i : Nat) (group : Group)
    (key : Nat) (s : Outputs) : Except ParserError Outputs :=
  expandNested fuel group ((root, i + 1) :: parents) key 0 s

/-- A group with one atom is expanded like one with several. -/
theorem expandNested_ofAtoms (fuel : Nat) (atoms : List Atom) (parents : List (Group × Nat))
    (outKey start : Nat) (s : Outputs) :
    expandNested (fuel + 1) (Group.ofAtoms atoms) parents outKey start s =
      nestedAtoms (goUp fuel parents outKey) (goDown fuel (Group.ofAtoms atoms) parents) outKey
        start (atoms.drop start) s := by
  have several (atoms : List Atom) :
      expandNested (fuel + 1) (.many atoms) parents outKey start s =
        nestedAtoms (goUp fuel parents outKey) (goDown fuel (.many atoms) parents) outKey
          start (atoms.drop start) s := by
    rw [expandNested]
    dsimp only
    split
    · rename_i behind
      rw [List.drop_eq_nil_of_le behind]
      rfl
    · rfl
  cases atoms with
  | nil => exact several []
  | cons atom rest =>
      cases rest with
      | cons next rest => exact several (atom :: next :: rest)
      | nil =>
          cases start with
          | zero => cases atom <;> rfl
          | succ start =>
              rw [List.drop_eq_nil_of_le (Nat.le_add_left 1 start)]
              rfl

/-- A group goes on at an index with a word. -/
structure Resumes (group : Group) (start : Nat) (word : Word) : Prop where
  atoms : ∃ atoms, group = Group.ofAtoms atoms ∧ atoms.drop start = word.atoms
  short : start + word.atoms.length ≤ 65536
  narrow : word.narrow

/-- One call of the expansion: the texts up to the next group or the end of the word are written,
and what the calls behind write. -/
theorem nestedAtoms_writes {fuel : Nat} {root : Group} {parents : List (Group × Nat)}
    {chain : List Word}
    (calls : ∀ {group : Group} {start : Nat} {word : Word} {others : List (Group × Nat)}
      {chain : List Word}, Resumes group start word →
        List.Forall₂ (fun (parent : Group × Nat) word => Resumes parent.1 parent.2 word) others
          chain →
        cost (word :: chain) ≤ fuel →
        Writes (fun key s => expandNested fuel group others key start s) (combine (word :: chain)))
    (resumes : List.Forall₂ (fun (parent : Group × Nat) word => Resumes parent.1 parent.2 word)
      parents chain) :
    ∀ (word : Word) (start : Nat),
      (∃ atoms, root = Group.ofAtoms atoms ∧ atoms.drop start = word.atoms) →
      start + word.atoms.length ≤ 65536 → word.narrow → cost (word :: chain) ≤ fuel + 1 →
        Writes
          (fun key s => nestedAtoms (goUp fuel parents key) (goDown fuel root parents) key start
            word.atoms s)
          (combine (word :: chain))
  | .empty, start, _, _, _, enough => by
      rw [combine_empty]
      cases resumes with
      | nil => exact Writes.stop
      | @cons parent word others chain resumed resumes =>
          rw [cost, Word.groups] at enough
          exact calls resumed resumes (by omega)
  | .text txt rest, start, ⟨atoms, same, tail⟩, short, narrow, enough => by
      rw [Word.atoms, List.length_cons] at short
      have tailRest : atoms.drop (start + 1) = rest.atoms := by
        rw [← List.drop_drop, tail]
        rfl
      have writes := nestedAtoms_writes calls resumes rest (start + 1) ⟨atoms, same, tailRest⟩
        (by omega) narrow enough
      have inRange : ¬start > 65535 := by omega
      rw [combine_text]
      intro written before room fits small
      rw [← writes.text txt written before room fits small]
      dsimp only [Word.atoms]
      rw [nestedAtoms]
      exact if_neg inRange
  | .group variants rest, start, ⟨atoms, same, tail⟩, short, narrow, enough => by
      rw [Word.atoms, List.length_cons] at short
      rw [cost, Word.groups] at enough
      have tailRest : atoms.drop (start + 1) = rest.atoms := by
        rw [← List.drop_drop, tail]
        rfl
      have resumed : Resumes root (start + 1) rest :=
        ⟨⟨atoms, same, tailRest⟩, by omega, narrow.2⟩
      have inRange : ¬start > 65535 := by omega
      have someVariant : variants.parsed ≠ [] := by
        cases variants <;> exact List.cons_ne_nil _ _
      have bothWrite : List.Forall₂
          (fun variant words => words ≠ [] ∧ Writes (goDown fuel root parents start variant) words)
          variants.parsed (variants.words.map fun word => combine (word :: rest :: chain)) := by
        rw [Variants.parsed_eq, List.forall₂_map_left_iff, List.forall₂_map_right_iff,
          List.forall₂_same]
        intro word member
        obtain ⟨shortWord, narrowWord⟩ := variants.narrow_words narrow.1 word member
        have fewer := variants.groups_words word member
        have entered : Resumes (Group.ofAtoms word.atoms) 0 word :=
          ⟨⟨word.atoms, rfl, rfl⟩, by omega, narrowWord⟩
        refine ⟨combine_ne_nil _, calls entered (List.Forall₂.cons resumed resumes) ?_⟩
        rw [cost, cost]
        omega
      have groupWrites := forVariants_writes someVariant bothWrite
      rw [combine_group]
      intro written before room fits small
      rw [← groupWrites written before room fits small]
      dsimp only [Word.atoms]
      rw [nestedAtoms]
      exact if_neg inRange

/-- A group is expanded from where it goes on, and its parents behind it. -/
theorem expandNested_writes : ∀ (fuel : Nat) {group : Group} {start : Nat} {word : Word}
    {parents : List (Group × Nat)} {chain : List Word}, Resumes group start word →
      List.Forall₂ (fun (parent : Group × Nat) word => Resumes parent.1 parent.2 word) parents
        chain →
      cost (word :: chain) ≤ fuel →
      Writes (fun key s => expandNested fuel group parents key start s) (combine (word :: chain))
  | 0, _, _, word, _, chain, _, _, enough => by
      rw [cost] at enough
      omega
  | fuel + 1, group, start, word, parents, chain, resumed, resumes, enough => by
      obtain ⟨atoms, rfl, tail⟩ := resumed.atoms
      have writes := nestedAtoms_writes (expandNested_writes fuel) resumes word start
        ⟨atoms, rfl, tail⟩ resumed.short resumed.narrow enough
      intro written before room fits small
      rw [← writes written before room fits small]
      dsimp only
      rw [expandNested_ofAtoms, tail]

/-- A word whose variants are all kept by the parser is expanded. -/
theorem expand_nested {word : Word} (full : word.noneEndsEmpty = true)
    (narrow : word.narrow) (short : word.atoms.length ≤ 65536) (fewGroups : word.groups ≤ 256)
    (fewWords : word.expansions.length ≤ 65535) :
    expand (word.tokens ++ [.eof]) (List.replicate word.expansions.length []) true =
      .ok word.expansions := by
  have resumes : Resumes (Group.ofAtoms word.atoms) 0 word :=
    ⟨⟨word.atoms, rfl, rfl⟩, by omega, narrow⟩
  have enough : cost [word] ≤ 2 * (word.tokens ++ [Token.eof]).length + 1 := by
    have counted := word.groups_le_tokens
    rw [cost, cost, List.length_append]
    omega
  have alone : combine [word] = word.expansions := by
    simp [combine]
  have writes := expandNested_writes _ resumes List.Forall₂.nil enough
  rw [alone] at writes
  unfold expand
  rw [checkBraceGroupCount_tokens fewGroups]
  dsimp only
  rw [if_neg (by decide), parse_tokens full fewGroups]
  exact writes.outputs (List.length_pos_iff.mp word.expansions_length_pos) fewWords

end Bunx.Shell
