/-
Module: Bunx.Shell.Braces
Purpose: Brace expansion of the shell, as the code does it: the lexer, the expanded amount,
  the flat and the nested expansion.
Trusted boundary: sources and token lists are shorter than 2^32; the allocator serves every
  request; arithmetic wraps as in a release build, where debug assertions are left out. The
  brace depth that the flat expansion passes on is left out, since nothing reads it.
Main exports:
  Token, InputChar, tokenize, calculateExpandedAmount, buildExpansionTable, expandFlat,
  Atom, Group, Parser.parse, expandNested, expand
-/
import Mathlib.Algebra.Ring.Int.Defs
import Mathlib.Algebra.Ring.Nat

namespace Bunx.Shell

abbrev Bytes := List UInt8

/-! ### Characters -/

inductive StringEncoding where
  | ascii
  | wtf8
  | utf16
deriving Repr, DecidableEq

/-- `wtf8_byte_sequence_length`. -/
def wtf8ByteSequenceLength (first : UInt8) : Nat :=
  if first ≤ 0x7f then 1
  else if 0xc0 ≤ first ∧ first ≤ 0xdf then 2
  else if 0xe0 ≤ first ∧ first ≤ 0xef then 3
  else if 0xf0 ≤ first ∧ first ≤ 0xf7 then 4
  else 1

/-- `decode_wtf8_rune_t` of a sequence of this length; `none` is its zero value. -/
def decodeWtf8Rune (p : Nat → UInt8) (len : Nat) : Option Nat :=
  let bits (i : Nat) (mask : UInt8) := (p i &&& mask).toNat
  let continues (i : Nat) : Bool := p i &&& 0xc0 == 0x80
  if len = 1 then some (p 0).toNat
  else if !continues 1 then none
  else if len = 2 then
    let cp := bits 0 0x1f * 64 + bits 1 0x3f
    if cp < 0x80 then none else some cp
  else if !continues 2 then none
  else if len = 3 then
    let cp := bits 0 0x0f * 4096 + bits 1 0x3f * 64 + bits 2 0x3f
    if cp < 0x800 then none else some cp
  else if !continues 3 then none
  else
    let cp := bits 0 0x07 * 262144 + bits 1 0x3f * 4096 + bits 2 0x3f * 64 + bits 3 0x3f
    if cp < 0x10000 ∨ cp > 0x10ffff then none else some cp

/-- The code points of a text and what stands for a byte that begins none. -/
def codePoints : Nat → Bytes → List Nat
  | 0, _ => []
  | _ + 1, [] => []
  | fuel + 1, first :: rest =>
      if first < 0x80 then first.toNat :: codePoints fuel rest
      else
        let len := wtf8ByteSequenceLength first
        let buf := (first :: rest).take len
        match decodeWtf8Rune (fun i => buf.getD i 0) len with
        | none => 0xfffd :: codePoints fuel rest
        | some cp => cp :: codePoints fuel ((first :: rest).drop len)

/-- `encode_wtf8_rune`. -/
def encodeWtf8Rune (cp : Nat) : Bytes :=
  let continuation (n : Nat) := UInt8.ofNat (0x80 + n % 64)
  if cp < 0x80 then [UInt8.ofNat cp]
  else if cp < 0x800 then [0xc0 ||| UInt8.ofNat (cp / 64), continuation cp]
  else if cp < 0x10000 then
    [0xe0 ||| UInt8.ofNat (cp / 4096), continuation (cp / 64), continuation cp]
  else
    [0xf0 ||| UInt8.ofNat (cp / 262144), continuation (cp / 4096), continuation (cp / 64),
      continuation cp]

structure InputChar where
  char : Nat
  escaped : Bool
deriving Repr, DecidableEq

/-- What `eat` gives one after another: a backslash escapes what follows it, and one at the end
ends the input. -/
def eatAll : List Nat → List InputChar
  | [] => []
  | [c] => if c = 0x5c then [] else [{ char := c, escaped := false }]
  | c :: d :: rest =>
      if c = 0x5c then { char := d, escaped := true } :: eatAll rest
      else { char := c, escaped := false } :: eatAll (d :: rest)

def inputChars (encoding : StringEncoding) (src : Bytes) : List InputChar :=
  match encoding with
  | .ascii => eatAll (src.map UInt8.toNat)
  | _ => eatAll (codePoints src.length src)

/-- The bytes of a character in a text token. -/
def charBytes (encoding : StringEncoding) (char : Nat) : Bytes :=
  match encoding with
  | .ascii => [UInt8.ofNat char]
  | _ => encodeWtf8Rune char

/-! ### Tokens -/

/-- A token; an opening brace carries the range of its variants in the expansion table. -/
inductive Token where
  | open (idx stop : Nat)
  | comma
  | text (txt : Bytes)
  | close
  | eof
deriving Repr, DecidableEq

namespace Token

def toText : Token → Bytes
  | .open _ _ => [0x7b]
  | .comma => [0x2c]
  | .text txt => txt
  | .close => [0x7d]
  | .eof => []

def isOpen : Token → Bool
  | .open _ _ => true
  | _ => false

end Token

/-- `append_char`. -/
def appendChar (encoding : StringEncoding) (tokens : List Token) (char : Nat) : List Token :=
  match tokens.getLast? with
  | some (.text last) => tokens.dropLast ++ [.text (last ++ charBytes encoding char)]
  | _ => tokens ++ [.text (charBytes encoding char)]

/-- The lexer: where the braces not closed yet stand, innermost first, and the tokens. -/
structure Lexer where
  braceStack : List Nat := []
  tokens : List Token := []
deriving Repr, DecidableEq

/-- One character of the loop of `tokenize_impl`. -/
def Lexer.step (encoding : StringEncoding) (lexer : Lexer) (input : InputChar) : Lexer :=
  if !input.escaped ∧ input.char = 0x7b then
    { braceStack := lexer.tokens.length :: lexer.braceStack,
      tokens := lexer.tokens ++ [.open 0 0] }
  else if !input.escaped ∧ input.char = 0x7d ∧ lexer.braceStack ≠ [] then
    { braceStack := lexer.braceStack.tail, tokens := lexer.tokens ++ [.close] }
  else if !input.escaped ∧ input.char = 0x2c ∧ lexer.braceStack ≠ [] then
    { lexer with tokens := lexer.tokens ++ [.comma] }
  else { lexer with tokens := appendChar encoding lexer.tokens input.char }

/-- The loop of `rollback_braces` behind the brace; `braces` is a byte. -/
def rollbackFrom : Nat → List Token → List Token
  | _, [] => []
  | braces, tok :: rest =>
      if braces > 0 then
        match tok with
        | .open _ _ => tok :: rollbackFrom ((braces + 1) % 256) rest
        | .close => tok :: rollbackFrom (braces - 1) rest
        | _ => tok :: rollbackFrom braces rest
      else
        match tok with
        | .open _ _ => tok :: rollbackFrom ((braces + 1) % 256) rest
        | .eof => tok :: rollbackFrom braces rest
        | _ => .text tok.toText :: rollbackFrom braces rest

/-- `rollback_braces`. -/
def rollbackBraces (tokens : List Token) (startingIdx : Nat) : List Token :=
  match tokens.drop startingIdx with
  | [] => tokens
  | tok :: rest => tokens.take startingIdx ++ .text tok.toText :: rollbackFrom 0 rest

/-- The loop of `flatten_tokens` from the token `itok` on, behind which `rest` stands. -/
def flattenFrom : Token → List Token → Nat → Bool → List Token × Bool
  | itok, [], _, containsNested => ([itok], containsNested)
  | itok, jtok :: rest, braceCount, containsNested =>
      match itok, jtok with
      | .text itxt, .text jtxt =>
          flattenFrom (.text (itxt ++ jtxt)) rest braceCount containsNested
      | _, .close =>
          let (tokens, nested) := flattenFrom .close rest (braceCount - 1) containsNested
          (itok :: tokens, nested)
      | _, .open idx stop =>
          let (tokens, nested) := flattenFrom (.open idx stop) rest (braceCount + 1)
            (containsNested || braceCount + 1 > 1)
          (itok :: tokens, nested)
      | _, _ =>
          let (tokens, nested) := flattenFrom jtok rest braceCount containsNested
          (itok :: tokens, nested)

/-- `flatten_tokens`; with the tokens, whether braces are nested. -/
def flattenTokens : List Token → List Token × Bool
  | [] => ([], false)
  | tok :: rest => flattenFrom tok rest (if tok.isOpen then 1 else 0) false

structure LexerOutput where
  tokens : List Token
  containsNested : Bool
deriving Repr, DecidableEq

def tokenize (encoding : StringEncoding) (src : Bytes) : LexerOutput :=
  let lexer := (inputChars encoding src).foldl (Lexer.step encoding) {}
  let (tokens, containsNested) := flattenTokens (lexer.braceStack.foldl rollbackBraces lexer.tokens)
  { tokens := tokens ++ [.eof], containsNested := containsNested }

/-! ### The expanded amount -/

def u32Max : Nat := 2 ^ 32 - 1

def saturatingAdd (a b : Nat) : Nat := min (a + b) u32Max

def saturatingMul (a b : Nat) : Nat := min (a * b) u32Max

structure StackEntry where
  segmentProduct : Nat := 1
  accumulator : Nat := 0
deriving Repr, DecidableEq

/-- The loop of `calculate_expanded_amount`; `none` where the code unwraps nothing. -/
def amountFrom : List StackEntry → Nat → List Token → Option Nat
  | _, variantCount, [] => some variantCount
  | stack, variantCount, .open _ _ :: rest => amountFrom ({} :: stack) variantCount rest
  | stack, variantCount, .comma :: rest =>
      match stack with
      | [] => none
      | top :: outer =>
          let accumulator := saturatingAdd top.accumulator top.segmentProduct
          amountFrom ({ segmentProduct := 1, accumulator := accumulator } :: outer) variantCount
            rest
  | stack, variantCount, .close :: rest =>
      match stack with
      | [] => none
      | entry :: outer =>
          let total := saturatingAdd entry.accumulator entry.segmentProduct
          match outer with
          | parent :: others =>
              let segmentProduct := saturatingMul parent.segmentProduct total
              amountFrom ({ parent with segmentProduct := segmentProduct } :: others)
                variantCount rest
          | [] =>
              amountFrom [] (if variantCount = 0 then total else saturatingMul variantCount total)
                rest
  | stack, variantCount, _ :: rest => amountFrom stack variantCount rest

def calculateExpandedAmount (tokens : List Token) : Option Nat := amountFrom [] 0 tokens

/-! ### Outputs -/

/-- The errors of an expansion; `crash` is an index out of range or an unwrap of nothing. -/
inductive ParserError where
  | unexpectedToken
  | tooManyBraces
  | crash
deriving Repr, DecidableEq

/-- The outputs, and the counter of their keys. -/
abbrev Outputs := List Bytes × Nat

/-- Append to the output of a key. -/
def extend (key : Nat) (txt : Bytes) (s : Outputs) : Except ParserError Outputs :=
  match s.1[key]? with
  | none => .error .crash
  | some str => .ok (s.1.set key (str ++ txt), s.2)

/-- The loop over variants: the first goes on with the key, every other takes a new key that
starts from what was written before. -/
def forVariants {α : Type} (visit : α → Nat → Outputs → Except ParserError Outputs)
    (outKey : Nat) (before : Bytes) : Bool → List α → Outputs → Except ParserError Outputs
  | _, [], s => .ok s
  | true, variant :: variants, s =>
      match visit variant outKey s with
      | .error e => .error e
      | .ok s => forVariants visit outKey before false variants s
  | false, variant :: variants, s =>
      match extend s.2 before s with
      | .error e => .error e
      | .ok t =>
          match visit variant s.2 (t.1, (t.2 + 1) % 65536) with
          | .error e => .error e
          | .ok s => forVariants visit outKey before false variants s

/-! ### The flat expansion -/

structure BraceState where
  tokIdx : Nat
  prevTokEnd : Nat
deriving Repr, DecidableEq

/-- The variant that ends at the token at `i`. -/
abbrev ExpansionVariant := Nat × Nat

/-- The range of an opening brace ends here in the table. -/
def setStop (tokens : List Token) (tokIdx stop : Nat) : List Token :=
  match tokens[tokIdx]? with
  | some (.open idx _) => tokens.set tokIdx (.open idx stop)
  | _ => tokens

/-- The loop of `build_expansion_table`: the tokens passed, with their ranges, and those to
come. -/
def tableFrom : List Token → List Token → List ExpansionVariant → List BraceState →
    Option (List Token × List ExpansionVariant)
  | passed, [], table, _ => some (passed, table)
  | passed, .open _ stop :: rest, table, stack =>
      tableFrom (passed ++ [.open table.length stop]) rest table
        ({ tokIdx := passed.length, prevTokEnd := passed.length } :: stack)
  | passed, .close :: rest, table, stack =>
      match stack with
      | [] => none
      | top :: outer =>
          let table := table ++ [(top.prevTokEnd + 1, passed.length)]
          tableFrom (setStop (passed ++ [.close]) top.tokIdx table.length) rest table outer
  | passed, .comma :: rest, table, stack =>
      match stack with
      | [] => none
      | top :: outer =>
          tableFrom (passed ++ [.comma]) rest
            (table ++ [(top.prevTokEnd + 1, passed.length)])
            ({ top with prevTokEnd := passed.length } :: outer)
  | passed, tok :: rest, table, stack => tableFrom (passed ++ [tok]) rest table stack

/-- `build_expansion_table`: the tokens with their ranges, and the table. -/
def buildExpansionTable (tokens : List Token) :
    Except ParserError (List Token × List ExpansionVariant) :=
  if tokens.length > 65535 then .error .unexpectedToken
  else
    match tableFrom [] tokens [] [] with
    | none => .error .crash
    | some built => .ok built

/-- The loop of `expand_flat` over its tokens; `call` is the call of itself. -/
def flatAtoms (table : List ExpansionVariant)
    (call : Nat → Nat → Nat → Outputs → Except ParserError Outputs) (outKey stop : Nat) :
    List Token → Outputs → Except ParserError Outputs
  | [], s => .ok s
  | .text txt :: rest, s =>
      match extend outKey txt s with
      | .error e => .error e
      | .ok s => flatAtoms table call outKey stop rest s
  | .open idx last :: _, s =>
      if idx > last ∨ last > table.length then .error .crash
      else
        let variants := (table.take last).drop idx
        match variants.getLast?, s.1[outKey]? with
        | some skipOver, some before =>
            forVariants
              (fun variant key s =>
                match call key variant.1 variant.2 s with
                | .error e => .error e
                | .ok s => call key skipOver.2 stop s)
              outKey before true variants s
        | _, _ => .error .crash
  | _ :: rest, s => flatAtoms table call outKey stop rest s

/-- `expand_flat`. -/
def expandFlat (tokens : List Token) (table : List ExpansionVariant) :
    Nat → Nat → Nat → Nat → Outputs → Except ParserError Outputs
  | 0, _, _, _, _ => .error .crash
  | fuel + 1, outKey, start, stop, s =>
      if start ≥ tokens.length ∨ stop > tokens.length then .ok s
      else if start > stop then .error .crash
      else
        flatAtoms table (expandFlat tokens table fuel) outKey stop
          ((tokens.take stop).drop start) s

/-! ### The parser -/

mutual

inductive Atom where
  | text (txt : Bytes)
  | expansion (variants : List Group)

inductive Group where
  | single (atom : Atom)
  | many (atoms : List Atom)

end

/-- The atoms of a group, as the parser wraps them. -/
def Group.ofAtoms : List Atom → Group
  | [atom] => .single atom
  | atoms => .many atoms

/-- `check_brace_group_count`. -/
def checkBraceGroupCount (tokens : List Token) : Except ParserError Unit :=
  if tokens.countP Token.isOpen > 256 then .error .tooManyBraces else .ok ()

namespace Parser

/-! The parser is a place in its tokens, `current`; it is written as the tokens from there on,
which are never used up since the last one ends the input. -/

/-- `match` of a closing brace or the end, of which the end is not passed. -/
def matchEnd : List Token → Option (List Token)
  | .close :: rest => some rest
  | .eof :: rest => some (.eof :: rest)
  | _ => none

mutual

/-- `parse_atom`. -/
def parseAtom : Nat → List Token → Except ParserError (Option Atom × List Token)
  | 0, _ => .error .crash
  | _ + 1, [] => .error .crash
  | fuel + 1, tok :: rest =>
      match tok with
      | .open _ _ =>
          match parseExpansion fuel rest with
          | .error e => .error e
          | .ok (variants, rest) => .ok (some (.expansion variants), rest)
      | .text txt => .ok (some (.text txt), rest)
      | .eof => .ok (none, .eof :: rest)
      | .close | .comma => .error .unexpectedToken

/-- `parse_expansion`. -/
def parseExpansion : Nat → List Token → Except ParserError (List Group × List Token)
  | 0, _ => .error .crash
  | fuel + 1, tokens =>
      match matchEnd tokens with
      | some rest => .ok ([], rest)
      | none =>
          match parseVariant fuel tokens with
          | .error e => .error e
          | .ok (atoms, close, rest) =>
              if close then .ok ([Group.ofAtoms atoms], rest)
              else
                match parseExpansion fuel rest with
                | .error e => .error e
                | .ok (variants, rest) => .ok (Group.ofAtoms atoms :: variants, rest)

/-- The loop over the atoms of a variant; with them, whether the group is closed. -/
def parseVariant : Nat → List Token → Except ParserError (List Atom × Bool × List Token)
  | 0, _ => .error .crash
  | _ + 1, [] => .error .crash
  | fuel + 1, tok :: rest =>
      match tok with
      | .eof => .ok ([], false, .eof :: rest)
      | .close => .ok ([], true, rest)
      | .comma => .ok ([], false, rest)
      | _ =>
          match parseAtom fuel (tok :: rest) with
          | .error e => .error e
          | .ok (none, rest) => .ok ([], false, rest)
          | .ok (some atom, rest) =>
              match parseVariant fuel rest with
              | .error e => .error e
              | .ok (atoms, close, rest) => .ok (atom :: atoms, close, rest)

end

/-- The loop of `parse`. -/
def parseAtoms : Nat → List Token → Except ParserError (List Atom)
  | 0, _ => .error .crash
  | fuel + 1, tokens =>
      match tokens with
      | .eof :: _ => .ok []
      | _ =>
          match parseAtom fuel tokens with
          | .error e => .error e
          | .ok (none, _) => .ok []
          | .ok (some atom, rest) =>
              match parseAtoms fuel rest with
              | .error e => .error e
              | .ok atoms => .ok (atom :: atoms)

def parse (tokens : List Token) : Except ParserError Group :=
  match checkBraceGroupCount tokens with
  | .error e => .error e
  | .ok _ =>
      match parseAtoms (3 * tokens.length + 3) tokens with
      | .error e => .error e
      | .ok atoms => .ok (Group.ofAtoms atoms)

end Parser

/-! ### The nested expansion -/

/-- The loop of `expand_nested` over the atoms from index `i` on; `up` goes on in the parent, and
`down` expands a variant of the atom at an index. -/
def nestedAtoms (up : Outputs → Except ParserError Outputs)
    (down : Nat → Group → Nat → Outputs → Except ParserError Outputs) (outKey : Nat) :
    Nat → List Atom → Outputs → Except ParserError Outputs
  | _, [], s => up s
  | i, atom :: rest, s =>
      if i > 65535 then .error .crash
      else
        match atom with
        | .text txt =>
            match extend outKey txt s with
            | .error e => .error e
            | .ok s => nestedAtoms up down outKey (i + 1) rest s
        | .expansion variants =>
            match s.1[outKey]? with
            | none => .error .crash
            | some before => forVariants (down i) outKey before true variants s

/-- `expand_nested`. The parents of a group, with the index at which each goes on, are given
along: what the code reaches through `bubble_up`. -/
def expandNested : Nat → Group → List (Group × Nat) → Nat → Nat → Outputs →
    Except ParserError Outputs
  | 0, _, _, _, _, _ => .error .crash
  | fuel + 1, root, parents, outKey, start, s =>
      let up : Outputs → Except ParserError Outputs := fun s =>
        match parents with
        | [] => .ok s
        | (parent, next) :: others => expandNested fuel parent others outKey next s
      let down : Nat → Group → Nat → Outputs → Except ParserError Outputs :=
        fun i group key s => expandNested fuel group ((root, i + 1) :: parents) key 0 s
      match root with
      | .single atom =>
          if start > 0 then up s
          else
            match atom with
            | .text txt =>
                match extend outKey txt s with
                | .error e => .error e
                | .ok s => up s
            | .expansion variants =>
                match s.1[outKey]? with
                | none => .error .crash
                | some before => forVariants (down 0) outKey before true variants s
      | .many atoms =>
          if start ≥ atoms.length then up s
          else nestedAtoms up down outKey start (atoms.drop start) s

/-- `expand`: the outputs that were made room for, filled. -/
def expand (tokens : List Token) (out : List Bytes) (containsNested : Bool) :
    Except ParserError (List Bytes) :=
  match checkBraceGroupCount tokens with
  | .error e => .error e
  | .ok _ =>
      if !containsNested then
        match buildExpansionTable tokens with
        | .error e => .error e
        | .ok (tokens, table) =>
            (expandFlat tokens table (tokens.length + 1) 0 0 tokens.length (out, 1)).map Prod.fst
      else
        match Parser.parse tokens with
        | .error e => .error e
        | .ok root =>
            (expandNested (2 * tokens.length + 1) root [] 0 0 (out, 1)).map Prod.fst

end Bunx.Shell
