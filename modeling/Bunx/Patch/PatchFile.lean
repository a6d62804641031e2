/-
Module: Bunx.Patch.PatchFile
Purpose: Reading a patch file into the changes it asks for, as the code does it.
Trusted boundary: `usize` sums stay below their limit; the allocator serves every request.
Main exports:
  PartType, Hunk, FileDeets, PatchFilePart, ParseErr, LinesParser, parseHunkHeaderLine,
  parseDiffLinePaths, parse, parsePatchFile
-/
import Mathlib.Algebra.Ring.Int.Defs
import Mathlib.Algebra.Ring.Nat

namespace Bunx.Patch

abbrev Bytes := List UInt8

/-- The bytes of a text of the source. -/
def ascii (s : String) : Bytes := s.toList.map fun c => UInt8.ofNat c.toNat

def newline : UInt8 := 0x0a

/-! ### Bytes -/

/-- `WHITESPACE`. -/
def isWhitespace (c : UInt8) : Bool := c == 0x20 || c == 0x09 || c == newline || c == 0x0d

def trimLeft (s : Bytes) : Bytes := s.dropWhile isWhitespace

def trimRight (s : Bytes) : Bytes := (s.reverse.dropWhile isWhitespace).reverse

def trim (s : Bytes) : Bytes := trimRight (trimLeft s)

/-- `index_of_char`: the index is cut to 32 bits. -/
def indexOfChar (slice : Bytes) (c : UInt8) : Option Nat :=
  (slice.findIdx? (· == c)).map (· % 4294967296)

def isDigit (c : UInt8) : Bool := 0x30 ≤ c && c ≤ 0x39

def digitValue (c : UInt8) : Option Nat :=
  if isDigit c then some (c.toNat - 0x30)
  else if 0x61 ≤ c ∧ c ≤ 0x7a then some (c.toNat - 0x61 + 10)
  else if 0x41 ≤ c ∧ c ≤ 0x5a then some (c.toNat - 0x41 + 10)
  else none

/-- The digit loop of `parse_with_sign`; what is too large for its accumulator is too large
for the callers here. -/
def digitLoop (radix : Nat) : Bytes → Nat → Option Nat
  | [], acc => some acc
  | c :: rest, acc =>
      if c = 0x5f then digitLoop radix rest acc
      else
        match digitValue c with
        | some d => if d ≥ radix then none else digitLoop radix rest (acc * radix + d)
        | none => none

def parseWithSign (digits : Bytes) (radix : Nat) : Option Nat :=
  if digits = [] ∨ digits.head? = some 0x5f ∨ digits.getLast? = some 0x5f then none
  else digitLoop radix digits 0

/-- `parse_int::<u32>`. -/
def parseInt (buf : Bytes) (radix : Nat) : Option Nat :=
  match buf with
  | [] => none
  | c :: rest =>
      let neg : Bool := c = 0x2d
      let digits := if c = 0x2b ∨ c = 0x2d then rest else c :: rest
      match parseWithSign digits radix with
      | none => none
      | some acc =>
          if neg then (if acc = 0 then some 0 else none)
          else if acc < 4294967296 then some acc
          else none

/-! ### What a patch file says -/

inductive PartType where
  | context
  | insertion
  | deletion
deriving Repr, DecidableEq

structure PatchMutationPart where
  ty : PartType := .context
  lines : List Bytes := []
  noNewlineAtEndOfFile : Bool := false
deriving Repr, DecidableEq

structure HeaderRange where
  start : Nat := 1
  len : Nat := 0
deriving Repr, DecidableEq

structure Header where
  original : HeaderRange := {}
  patched : HeaderRange := {}
deriving Repr, DecidableEq

structure Hunk where
  header : Header := {}
  parts : List PatchMutationPart := []
deriving Repr, DecidableEq

namespace Hunk

/-- The lines of the parts on the original side. -/
def originalLength (hunk : Hunk) : Nat :=
  (hunk.parts.map fun part => if part.ty = .insertion then 0 else part.lines.length).sum

def patchedLength (hunk : Hunk) : Nat :=
  (hunk.parts.map fun part => if part.ty = .deletion then 0 else part.lines.length).sum

def verifyIntegrity (hunk : Hunk) : Bool :=
  hunk.originalLength = hunk.header.original.len ∧ hunk.patchedLength = hunk.header.patched.len

end Hunk

inductive FileMode where
  | nonExecutable
  | executable
deriving Repr, DecidableEq

def FileMode.fromU32 (mode : Nat) : Option FileMode :=
  if mode = 0o644 then some .nonExecutable
  else if mode = 0o755 then some .executable
  else none

structure FileDeets where
  diffLineFromPath : Option Bytes := none
  diffLineToPath : Option Bytes := none
  oldMode : Option Bytes := none
  newMode : Option Bytes := none
  deletedFileMode : Option Bytes := none
  newFileMode : Option Bytes := none
  renameFrom : Option Bytes := none
  renameTo : Option Bytes := none
  beforeHash : Option Bytes := none
  afterHash : Option Bytes := none
  fromPath : Option Bytes := none
  toPath : Option Bytes := none
  hunks : List Hunk := []
deriving Repr, DecidableEq

/-- One field of `nullify_empty_strings`. -/
def nullify (field : Option Bytes) : Option Bytes := if field = some [] then none else field

def FileDeets.nullifyEmptyStrings (file : FileDeets) : FileDeets :=
  { diffLineFromPath := nullify file.diffLineFromPath
    diffLineToPath := nullify file.diffLineToPath
    oldMode := nullify file.oldMode
    newMode := nullify file.newMode
    deletedFileMode := nullify file.deletedFileMode
    newFileMode := nullify file.newFileMode
    renameFrom := nullify file.renameFrom
    renameTo := nullify file.renameTo
    beforeHash := nullify file.beforeHash
    afterHash := nullify file.afterHash
    fromPath := nullify file.fromPath
    toPath := nullify file.toPath
    hunks := file.hunks }

inductive PatchFilePart where
  | filePatch (path : Bytes) (hunks : List Hunk) (beforeHash afterHash : Option Bytes)
  | fileDeletion (path : Bytes) (mode : FileMode) (hunk : Option Hunk) (hash : Option Bytes)
  | fileCreation (path : Bytes) (mode : FileMode) (hunk : Option Hunk) (hash : Option Bytes)
  | fileRename (fromPath toPath : Bytes)
  | fileModeChange (path : Bytes) (oldMode newMode : FileMode)
deriving Repr, DecidableEq

inductive PatchFilePartKind where
  | filePatch
  | fileDeletion
  | fileCreation
  | fileRename
  | fileModeChange
deriving Repr, DecidableEq

inductive ParseErr where
  | unrecognizedPragma
  | noNewlineAtEofPragmaEncounteredWithoutContext
  | hunkLinesEncounteredBeforeHunkHeader
  | hunkHeaderIntegrityCheckFailed
  | badDiffLine
  | badHeaderLine
  | renameFromAndToNotGive
  | noPathGivenForFileDeletion
  | noPathGivenForFileCreation
  | badFileMode
deriving Repr, DecidableEq

/-! ### Header lines -/

structure HunkHeaderLineImpl where
  lineNr : Nat
  lineCount : Nat
  rest : Bytes
deriving Repr, DecidableEq

/-- The digits up to a byte that ends them; another byte before it is an error. -/
def digitsUntil (ends : UInt8 → Bool) (text : Bytes) : Except ParseErr (Bytes × Bytes) :=
  match text.span fun c => !ends c with
  | (_, []) => .error .badHeaderLine
  | (digits, rest) => if digits.all isDigit then .ok (digits, rest) else .error .badHeaderLine

def parseHunkHeaderLineImpl (text : Bytes) : Except ParseErr HunkHeaderLineImpl := do
  let (lineNr, text) ← digitsUntil (fun c => c == 0x2c || c == 0x20) text
  if text.length < 2 then .error .badHeaderLine
  else
    let sawComma : Bool := text.head? = some 0x2c
    let (lineNrCount, text) ←
      if sawComma then digitsUntil (fun c => c == 0x20) (text.drop 1)
      else .ok ([0x31], text)
    match parseInt lineNr 10, parseInt lineNrCount 10 with
    | some nr, some count => .ok { lineNr := max 1 nr, lineCount := count, rest := text }
    | _, _ => .error .badHeaderLine

def parseHunkHeaderLine (line : Bytes) : Except ParseErr Hunk := do
  let line := trim line
  if line.take 4 ≠ ascii "@@ -" ∨ line.length ≤ 4 then .error .badHeaderLine
  else
    let first ← parseHunkHeaderLineImpl (line.drop 4)
    if first.rest.length < 2 ∨ first.rest[1]? ≠ some 0x2b then .error .badHeaderLine
    else
      let second ← parseHunkHeaderLineImpl (first.rest.drop 2)
      if second.rest.take 3 = ascii " @@" then
        .ok { header :=
                { original := { start := first.lineNr, len := first.lineCount }
                  patched := { start := second.lineNr, len := second.lineCount } } }
      else .error .badHeaderLine

def isWordChar (c : UInt8) : Bool :=
  isDigit c || (0x61 ≤ c && c ≤ 0x7a) || (0x41 ≤ c && c ≤ 0x5a) || c == 0x5f

/-- `index_of` of `..`. -/
def indexOfDots : Bytes → Option Nat
  | [] => none
  | c :: rest =>
      if c = 0x2e ∧ rest.head? = some 0x2e then some 0 else (indexOfDots rest).map (· + 1)

def parseDiffHashes (line : Bytes) : Option (Bytes × Bytes) := do
  let delimiterStart ← indexOfDots line
  let aPart := line.take delimiterStart
  if !aPart.all isWordChar then none
  else if delimiterStart + 2 ≥ line.length then none
  else
    let bPart := (line.drop (delimiterStart + 2)).takeWhile fun c => !isWhitespace c
    if bPart.all isWordChar then some (aPart, bPart) else none

/-- The loop for the `b` of ` b/`; each turn moves `i`, so the length is fuel enough. -/
def findBPart (rest : Bytes) : Nat → Nat → Option Nat
  | 0, _ => none
  | fuel + 1, i => do
      let startOfBPart ← indexOfChar (rest.drop i) 0x62
      let i := i + startOfBPart
      if i > 0 ∧ rest[i - 1]? = some 0x20 ∧ i + 1 < rest.length ∧ rest[i + 1]? = some 0x2f then
        some i
      else findBPart rest fuel (i + 1)

def parseDiffLinePaths (line : Bytes) : Option (Bytes × Bytes) :=
  let start := ascii "diff --git a/"
  if !start.isPrefixOf line then none
  else
    let rest := line.drop start.length
    if rest = [] then none
    else do
      let i ← findBPart rest (rest.length + 1) 0
      some (rest.take (i - 1), trimRight (rest.drop (i + 2)))

/-! ### Lines -/

inductive ParserState where
  | parsingHeader
  | parsingHunks
deriving Repr, DecidableEq

inductive HunkLineType where
  | part (ty : PartType)
  | header
  | pragma
deriving Repr, DecidableEq

/-- `PatchLinesParser`. -/
structure LinesParser where
  result : List FileDeets := []
  currentFilePatch : FileDeets := {}
  state : ParserState := .parsingHeader
  currentHunk : Option Hunk := none
  currentHunkMutationPart : Option PatchMutationPart := none
deriving Repr, DecidableEq

namespace LinesParser

def commitHunk (p : LinesParser) : LinesParser :=
  match p.currentHunk with
  | none => p
  | some hunk =>
      let hunk :=
        match p.currentHunkMutationPart with
        | some part => { hunk with parts := hunk.parts ++ [part] }
        | none => hunk
      { p with
        currentFilePatch := { p.currentFilePatch with hunks := p.currentFilePatch.hunks ++ [hunk] }
        currentHunk := none
        currentHunkMutationPart := none }

def commitFilePatch (p : LinesParser) : LinesParser :=
  let p := p.commitHunk
  { p with
    result := p.result ++ [p.currentFilePatch.nullifyEmptyStrings]
    currentFilePatch := {} }

/-- A change of the file that is read. -/
def setFile (p : LinesParser) (file : FileDeets) : LinesParser := { p with currentFilePatch := file }

/-- What is behind a key at the start of the line, trimmed. -/
def valueOf (key : String) (line : Bytes) : Bytes := trim (line.drop (ascii key).length)

/-- A line in `ParsingHeader` that does not start hunks. -/
def headerLine (p : LinesParser) (line : Bytes) : Except ParseErr LinesParser :=
  let startsWith (key : String) : Bool := (ascii key).isPrefixOf line
  let file := p.currentFilePatch
  if startsWith "diff --git " then
    let p := if file.diffLineFromPath.isSome then p.commitFilePatch else p
    match parseDiffLinePaths line with
    | none => .error .badDiffLine
    | some (fromPath, toPath) =>
        .ok (p.setFile { p.currentFilePatch with
          diffLineFromPath := some fromPath, diffLineToPath := some toPath })
  else if startsWith "old mode " then
    .ok (p.setFile { file with oldMode := some (valueOf "old mode " line) })
  else if startsWith "new mode " then
    .ok (p.setFile { file with newMode := some (valueOf "new mode " line) })
  else if startsWith "deleted file mode " then
    .ok (p.setFile { file with deletedFileMode := some (valueOf "deleted file mode " line) })
  else if startsWith "new file mode " then
    .ok (p.setFile { file with newFileMode := some (valueOf "new file mode " line) })
  else if startsWith "rename from " then
    .ok (p.setFile { file with renameFrom := some (valueOf "rename from " line) })
  else if startsWith "rename to " then
    .ok (p.setFile { file with renameTo := some (valueOf "rename to " line) })
  else if startsWith "index " then
    match parseDiffHashes (line.drop (ascii "index ").length) with
    | none => .ok p
    | some (before, after) =>
        .ok (p.setFile { file with beforeHash := some before, afterHash := some after })
  else if startsWith "--- " then
    .ok (p.setFile { file with fromPath := some (valueOf "--- a/" line) })
  else if startsWith "+++ " then
    .ok (p.setFile { file with toPath := some (valueOf "+++ b/" line) })
  else .ok p

/-- `none` is a line that belongs to no hunk. -/
def hunkLineType (line : Bytes) : Option HunkLineType :=
  match line with
  | [] => some (.part .context)
  | c :: _ =>
      if c = 0x40 then some .header
      else if c = 0x2d then some (.part .deletion)
      else if c = 0x2b then some (.part .insertion)
      else if c = 0x20 then some (.part .context)
      else if c = 0x5c then some .pragma
      else if c = 0x0d then some (.part .context)
      else none

/-- A line of a part: it goes on with the part before it or starts another one. -/
def partLine (p : LinesParser) (ty : PartType) (line : Bytes) : Except ParseErr LinesParser :=
  match p.currentHunk with
  | none => .error .hunkLinesEncounteredBeforeHunkHeader
  | some hunk =>
      let (hunk, current) :=
        match p.currentHunkMutationPart with
        | some part =>
            if part.ty ≠ ty then ({ hunk with parts := hunk.parts ++ [part] }, none)
            else (hunk, some part)
        | none => (hunk, none)
      let current := current.getD { ty := ty }
      .ok { p with
        currentHunk := some hunk
        currentHunkMutationPart := some { current with lines := current.lines ++ [line.drop 1] } }

def hunkLine (p : LinesParser) (ty : HunkLineType) (line : Bytes) : Except ParseErr LinesParser :=
  match ty with
  | .header => do
      let p := p.commitHunk
      let hunk ← parseHunkHeaderLine line
      .ok { p with currentHunk := some hunk }
  | .pragma =>
      if !(ascii "\\ No newline at end of file").isPrefixOf line then .error .unrecognizedPragma
      else
        match p.currentHunkMutationPart with
        | none => .error .noNewlineAtEofPragmaEncounteredWithoutContext
        | some part =>
            .ok { p with currentHunkMutationPart := some { part with noNewlineAtEndOfFile := true } }
  | .part ty => p.partLine ty line

/-- One line; the second result tells to go back to it. -/
def step (supportLegacyDiffs : Bool) (p : LinesParser) (line : Bytes) :
    Except ParseErr (LinesParser × Bool) :=
  match p.state with
  | .parsingHeader =>
      if (ascii "@@").isPrefixOf line then
        .ok ({ p.setFile { p.currentFilePatch with hunks := [] } with state := .parsingHunks }, true)
      else do
        let p ← p.headerLine line
        .ok (p, false)
  | .parsingHunks =>
      if supportLegacyDiffs ∧ (ascii "--- a/").isPrefixOf line then
        .ok ({ p with state := .parsingHeader }.commitFilePatch, true)
      else
        match hunkLineType line with
        | none => .ok ({ p with state := .parsingHeader }.commitFilePatch, true)
        | some ty => do
            let p ← p.hunkLine ty line
            .ok (p, false)

end LinesParser

/-- `ScalarSplitIter::next` on what is left of the file. -/
def nextLine (text : Bytes) : Bytes × Option Bytes :=
  match indexOfChar text newline with
  | some pos => (text.take pos, some (text.drop (pos + 1)))
  | none => (text, none)

/-- The loop over the lines; each is looked at twice at most. -/
def parseLoop (supportLegacyDiffs : Bool) :
    Nat → LinesParser → Option Bytes → Except ParseErr LinesParser
  | 0, p, _ => .ok p
  | _, p, none => .ok p
  | fuel + 1, p, some text => do
      let (line, rest) := nextLine text
      let (p, back) ← p.step supportLegacyDiffs line
      parseLoop supportLegacyDiffs fuel p (if back then some text else rest)

/-- `PatchLinesParser::parse` from a new parser. -/
def parse (supportLegacyDiffs : Bool) (file : Bytes) : Except ParseErr (List FileDeets) :=
  -- a line feed at the end starts no line
  let file := if file.getLast? = some newline then file.dropLast else file
  if file = [] then .ok []
  else do
    let p ← parseLoop supportLegacyDiffs (2 * (file.length + 1)) {} (some file)
    let p := p.commitFilePatch
    if p.result.all fun deets => deets.hunks.all Hunk.verifyIntegrity then .ok p.result
    else .error .hunkHeaderIntegrityCheckFailed

/-! ### The second pass -/

def parseFileMode (mode : Bytes) : Option FileMode :=
  match parseInt mode 8 with
  | none => none
  | some parsedMode => FileMode.fromU32 (parsedMode % 512)

/-- An option as a result. -/
def okOr {α : Type} (err : ParseErr) : Option α → Except ParseErr α
  | some a => .ok a
  | none => .error err

def isGiven (field : Option Bytes) : Bool := field.any (· ≠ [])

def FileDeets.kind (file : FileDeets) : PatchFilePartKind :=
  if isGiven file.renameFrom then .fileRename
  else if isGiven file.deletedFileMode then .fileDeletion
  else if isGiven file.newFileMode then .fileCreation
  else if file.hunks ≠ [] then .filePatch
  else .fileModeChange

/-- What the kind of change asks for, and the path of the file behind it. -/
def FileDeets.firstPart (file : FileDeets) :
    Except ParseErr (List PatchFilePart × Option Bytes) :=
  match file.kind with
  | .fileRename =>
      match file.renameFrom, file.renameTo with
      | some fromPath, some toPath => .ok ([.fileRename fromPath toPath], some toPath)
      | _, _ => .error .renameFromAndToNotGive
  | .fileDeletion => do
      let path ← okOr .noPathGivenForFileDeletion (file.diffLineFromPath.or file.fromPath)
      let mode ← okOr .badFileMode (file.deletedFileMode.bind parseFileMode)
      .ok ([.fileDeletion path mode file.hunks.head? file.beforeHash], none)
  | .fileCreation => do
      let path ← okOr .noPathGivenForFileCreation (file.diffLineToPath.or file.toPath)
      let mode ← okOr .badFileMode (file.newFileMode.bind parseFileMode)
      .ok ([.fileCreation path mode file.hunks.head? file.afterHash], none)
  | .filePatch => .ok ([], file.toPath.or file.diffLineToPath)
  | .fileModeChange => .ok ([], file.toPath.or file.diffLineToPath)

def FileDeets.parts (file : FileDeets) : Except ParseErr (List PatchFilePart) := do
  let (first, destinationFilePath) ← file.firstPart
  let modes ←
    match destinationFilePath, file.oldMode, file.newMode with
    | some path, some oldMode, some newMode =>
        if oldMode ≠ newMode then do
          let old ← okOr .badFileMode (parseFileMode oldMode)
          let new ← okOr .badFileMode (parseFileMode newMode)
          .ok [PatchFilePart.fileModeChange path old new]
        else .ok []
    | _, _, _ => .ok []
  let patch :=
    match destinationFilePath with
    | some path =>
        if file.hunks ≠ [] then [.filePatch path file.hunks file.beforeHash file.afterHash] else []
    | none => []
  .ok (first ++ modes ++ patch)

def patchFileSecondPass : List FileDeets → Except ParseErr (List PatchFilePart)
  | [] => .ok []
  | file :: files => do
      let parts ← file.parts
      let more ← patchFileSecondPass files
      .ok (parts ++ more)

/-- Where the counts of a hunk do not hold, the file is read again for older diffs. -/
def parsePatchFile (file : Bytes) : Except ParseErr (List PatchFilePart) :=
  match parse false file with
  | .ok files => patchFileSecondPass files
  | .error .hunkHeaderIntegrityCheckFailed => do
      let files ← parse true file
      patchFileSecondPass files
  | .error err => .error err

end Bunx.Patch
