/-
Module: Bunx.Bundler.OutputPieces
Purpose: The text of a chunk is cut where a unique key stands for something that is not yet known,
  and written again with what the keys stand for.
Trusted boundary: the writes of a manifest for an HTML import are a parameter; release builds,
  where no assertion is checked
Main exports: QueryKind, OutputPiece, breakOutputIntoPieces, OutputTables, countClosingTags,
  memcpyEscapingClosingTags, codeWithSourceMapShifts
-/
import Bunx.Lib.IndexOf
import Bunx.Paths.ResolvePath
import Bunx.SourceMap.LineColumnOffset

namespace Bunx.Bundler

open Bunx.Lib Bunx.Paths Bunx.SourceMap.TextOffset

/-! ### Pieces -/

inductive QueryKind where
  | none
  | asset
  | chunk
  | scb
  | htmlImport
deriving DecidableEq

/-- `A`, `C`, `S` and `H`. -/
def QueryKind.letter : QueryKind → Option UInt8
  | .asset => some 0x41
  | .chunk => some 0x43
  | .scb => some 0x53
  | .htmlImport => some 0x48
  | .none => Option.none

def QueryKind.fromLetter (b : UInt8) : Option QueryKind :=
  if b = 0x41 then some .asset
  else if b = 0x43 then some .chunk
  else if b = 0x53 then some .scb
  else if b = 0x48 then some .htmlImport
  else Option.none

structure Query where
  index : Nat
  kind : QueryKind
deriving DecidableEq

/-- The index has 29 bits. -/
def Query.new (index : Nat) (kind : QueryKind) : Query :=
  { index := index % 2 ^ 29, kind := kind }

def Query.none : Query := { index := 0, kind := .none }

/-- A text, and what stands behind it. -/
structure OutputPiece where
  data : Bytes
  query : Query
deriving DecidableEq

inductive IntermediateOutput where
  | pieces (pieces : List OutputPiece)
  | joiner (nodes : List Bytes)
  | empty

/-- How many files, chunks and HTML imports there are. -/
structure KeyLimits where
  files : Nat
  chunks : Nat
  htmlImports : Nat

def KeyLimits.admits (limits : KeyLimits) (kind : QueryKind) (index : Nat) : Bool :=
  match kind with
  | .asset => index < limits.files
  | .scb => index < limits.files
  | .chunk => index < limits.chunks
  | .htmlImport => index < limits.htmlImports
  | .none => false

def readIndex : Bytes → Nat → Option Nat
  | [], index => some index
  | c :: digits, index =>
      if c < 0x30 ∨ c > 0x39 then none else readIndex digits (index * 10 + (c.toNat - 0x30))

/-- The letter and the eight digits behind the prefix. -/
def boundaryQuery (limits : KeyLimits) (output : Bytes) (start : Nat) : Option Query :=
  if start + 9 > output.length then none
  else do
    let kind ← QueryKind.fromLetter (← output[start]?)
    let index ← readIndex ((output.drop (start + 1)).take 8) 0
    if limits.admits kind index then some (Query.new index kind) else none

/-- Each turn takes a key off the output. What is no key ends the loop. -/
def breakLoop (limits : KeyLimits) (uniqueKeyPrefix : Bytes) : Nat → Bytes → List OutputPiece
  | 0, output => [{ data := output, query := Query.none }]
  | fuel + 1, output =>
      let last := [{ data := output, query := Query.none }]
      match indexOf uniqueKeyPrefix output with
      | none => last
      | some boundary =>
          match boundaryQuery limits output (boundary + uniqueKeyPrefix.length) with
          | none => last
          | some query =>
              { data := output.take boundary, query := query } ::
                breakLoop limits uniqueKeyPrefix fuel
                  (output.drop (boundary + uniqueKeyPrefix.length + 9))

def joinerContains (nodes : List Bytes) (slice : Bytes) : Bool :=
  nodes.any fun node => (indexOf slice node).isSome

def breakOutputIntoPieces (limits : KeyLimits) (uniqueKeyPrefix : Bytes) (nodes : List Bytes) :
    IntermediateOutput :=
  if !joinerContains nodes uniqueKeyPrefix then .joiner nodes
  else .pieces (breakLoop limits uniqueKeyPrefix nodes.flatten.length nodes.flatten)

/-! ### Closing tags -/

/-- `</` -/
def tagStart : Bytes := [0x3C, 0x2F]

def toAsciiLowercase (c : UInt8) : UInt8 := if 0x41 ≤ c ∧ c ≤ 0x5A then c + 0x20 else c

/-- The suffix of the tag in front of a text, in any letter case. -/
def beginsIgnoringCase (remaining tagSuffix : Bytes) : Bool :=
  remaining.length ≥ tagSuffix.length &&
    (remaining.take tagSuffix.length).map toAsciiLowercase = tagSuffix.map toAsciiLowercase

def countLoop (tagSuffix : Bytes) : Nat → Bytes → Nat
  | 0, _ => 0
  | fuel + 1, remaining =>
      match indexOf tagStart remaining with
      | none => 0
      | some idx =>
          let remaining := remaining.drop (idx + 2)
          if beginsIgnoringCase remaining tagSuffix then
            1 + countLoop tagSuffix fuel (remaining.drop tagSuffix.length)
          else countLoop tagSuffix fuel remaining

def countClosingTags (content closeTag : Bytes) : Nat :=
  countLoop (closeTag.drop 2) content.length content

/-- `<\/` -/
def escapedTagStart : Bytes := [0x3C, 0x5C, 0x2F]

def memcpyLoop (cap : Nat) (tagSuffix : Bytes) : Nat → Bytes → Bytes → Option Bytes
  | 0, dest, remaining => put cap dest remaining
  | fuel + 1, dest, remaining =>
      match indexOf tagStart remaining with
      | none => put cap dest remaining
      | some idx => do
          let dest ← put cap dest (remaining.take idx)
          let remaining := remaining.drop (idx + 2)
          let dest ← put cap dest
            (if beginsIgnoringCase remaining tagSuffix then escapedTagStart else tagStart)
          memcpyLoop cap tagSuffix fuel dest remaining

/-- What is written behind `dest`, into a buffer of `cap` bytes. -/
def memcpyEscapingClosingTags (cap : Nat) (dest content closeTag : Bytes) : Option Bytes :=
  memcpyLoop cap (closeTag.drop 2) content.length dest content

/-! ### What keys stand for -/

inductive ChunkContent where
  | javascript
  | css
  | html
deriving DecidableEq

structure OutputChunk where
  uniqueKey : Bytes
  finalRelPath : Bytes
  content : ChunkContent
  isolatedHash : Nat

/-- `</script` and `</style`; no key inlines an HTML chunk. -/
def OutputChunk.closingTagForContent (chunk : OutputChunk) : Option Bytes :=
  match chunk.content with
  | .javascript => some [0x3C, 0x2F, 0x73, 0x63, 0x72, 0x69, 0x70, 0x74]
  | .css => some [0x3C, 0x2F, 0x73, 0x74, 0x79, 0x6C, 0x65]
  | .html => none

inductive AdditionalFile where
  | outputFile (index : Nat)
  | sourceIndex (index : Nat)

/-- The tables of the graphs that keys are looked up in. -/
structure OutputTables where
  chunks : List OutputChunk
  additionalFiles : List (List AdditionalFile)
  uniqueKeyForAdditionalFile : List Bytes
  additionalOutputPaths : List Bytes
  entryPointChunkIndex : List Nat
  urlForCss : List Bytes
  /-- The bytes that `write_escaped_json` writes, write by write. -/
  manifestWrites : Nat → List Bytes

structure OutputOptions where
  importPrefix : Bytes
  chunk : OutputChunk
  forceAbsolutePath : Bool
  standaloneChunkContents : Option (List (Option Bytes))
  windows : Bool
  topLevelDir : Bytes
  /-- How long a path buffer is. -/
  pathBuffer : Nat

def removeLeadingDotSlash (windows : Bool) (slice : Bytes) : Bytes :=
  if slice.take 2 = [0x2E, 0x2F] ∨ (windows ∧ slice.take 2 = [0x2E, 0x5C]) then slice.drop 2
  else slice

def isSlash (windows : Bool) (c : Option UInt8) : Bool :=
  c = some 0x2F || (windows && c = some 0x5C)

/-- `cheap_prefix_normalizer` -/
def cheapPrefixNormalizer (windows : Bool) (importPrefix suffix : Bytes) : Bytes × Bytes :=
  if importPrefix = [] then
    let suffixNoSlash := removeLeadingDotSlash windows suffix
    (if [0x2E, 0x2E, 0x2F].isPrefixOf suffixNoSlash then [] else [0x2E, 0x2F], suffixNoSlash)
  else if isSlash windows importPrefix.getLast? ∧ isSlash windows suffix.head? then
    (importPrefix, suffix.drop 1)
  else (importPrefix, removeLeadingDotSlash windows suffix)

def platformToPosixInPlace (windows : Bool) (path : Bytes) : Bytes :=
  if windows then path.map fun c => if c = 0x5C then 0x2F else c else path

/-- What `from_utf8_lossy` finds in front of a text: whether it is valid, and how long it is. -/
def utf8Sequence : Bytes → Bool × Nat
  | [] => (true, 0)
  | byte :: rest =>
      let second := rest[0]?.getD 0
      let secondFits : Bool :=
        (byte = 0xE0 ∧ 0xA0 ≤ second ∧ second ≤ 0xBF) ∨
          (0xE1 ≤ byte ∧ byte ≤ 0xEC ∧ 0x80 ≤ second ∧ second ≤ 0xBF) ∨
          (byte = 0xED ∧ 0x80 ≤ second ∧ second ≤ 0x9F) ∨
          (0xEE ≤ byte ∧ byte ≤ 0xEF ∧ 0x80 ≤ second ∧ second ≤ 0xBF) ∨
          (byte = 0xF0 ∧ 0x90 ≤ second ∧ second ≤ 0xBF) ∨
          (0xF1 ≤ byte ∧ byte ≤ 0xF3 ∧ 0x80 ≤ second ∧ second ≤ 0xBF) ∨
          (byte = 0xF4 ∧ 0x80 ≤ second ∧ second ≤ 0x8F)
      if byte < 0x80 then (true, 1)
      else if 0xC2 ≤ byte ∧ byte ≤ 0xDF then
        if isContinuation second then (true, 2) else (false, 1)
      else if !secondFits then (false, 1)
      else if !isContinuation (rest[1]?.getD 0) then (false, 2)
      else if byte < 0xF0 then (true, 3)
      else if isContinuation (rest[2]?.getD 0) then (true, 4) else (false, 3)

/-- How long a write is behind `FmtAdapter`: what is not valid becomes U+FFFD. -/
def lossyLoop : Nat → Bytes → Nat
  | 0, _ => 0
  | _, [] => 0
  | fuel + 1, text =>
      let (valid, n) := utf8Sequence text
      (if valid then n else 3) + lossyLoop fuel (text.drop n)

def lossyLength (text : Bytes) : Nat := lossyLoop text.length text

/-- The shift of a source map at one place. -/
structure SourceMapShifts where
  before : LineColumnOffset
  after : LineColumnOffset
deriving DecidableEq

/-- The sixteen hexadecimal digits of a hash, in upper case. -/
def hexDigits (id : Nat) : Bytes :=
  (List.range 16).map fun i =>
    let digit := id / 16 ^ (15 - i) % 16
    UInt8.ofNat (if digit < 10 then 0x30 + digit else 0x41 + (digit - 10))

/-- `\n//# debugId=`, the hash, `64756E2164756E21` and `\n` -/
def debugIdComment (id : Nat) : Bytes :=
  [0x0A, 0x2F, 0x2F, 0x23, 0x20, 0x64, 0x65, 0x62, 0x75, 0x67, 0x49, 0x64, 0x3D] ++ hexDigits id ++
    [0x36, 0x34, 0x37, 0x35, 0x36, 0x45, 0x32, 0x31, 0x36, 0x34, 0x37, 0x35, 0x36, 0x45, 0x32,
      0x31, 0x0A]

section Code

variable (tables : OutputTables) (options : OutputOptions)

/-- The path that a key stands for. -/
def filePath (query : Query) : Option Bytes :=
  match query.kind with
  | .asset => do
      let files ← tables.additionalFiles[query.index]?
      match files.getLast? with
      | some (.outputFile index) => tables.additionalOutputPaths[index]?
      | _ => none
  | .chunk => do return (← tables.chunks[query.index]?).finalRelPath
  | .scb => do
      let index ← tables.entryPointChunkIndex[query.index]?
      return (← tables.chunks[index]?).finalRelPath
  | _ => none

/-- What is inlined for a key in a standalone file, if anything. -/
def inlineContent (query : Query) : Option (Option Bytes) :=
  match options.standaloneChunkContents with
  | none => some none
  | some contents =>
      match query.kind with
      | .chunk => contents[query.index]?
      | .asset => some (tables.urlForCss[query.index]?.filter fun url => url ≠ [])
      | _ => some none

def fromChunkDir : Bytes :=
  let dir := dirname options.chunk.finalRelPath
  if dir = [0x2E] then [] else dir

/-- A path from the directory of the chunk on. -/
def pathFromChunk (filePath : Bytes) : Option Bytes :=
  if fromChunkDir options = [] ∨ options.forceAbsolutePath then some filePath
  else
    relativePlatformBuf options.topLevelDir false options.pathBuffer (fromChunkDir options) filePath

/-- The prefix and the path that are written for a file. -/
def prefixedPath (filePath : Bytes) : Option (Bytes × Bytes) := do
  let path ← pathFromChunk options filePath
  return cheapPrefixNormalizer options.windows options.importPrefix path

/-- The first pass: how long what a key stands for is. -/
def countQuery (query : Query) : Option Nat :=
  if query.kind = .none then some 0
  else do
    match ← inlineContent tables options query with
    | some content =>
        if query.kind = .chunk then do
          let closeTag ← (← tables.chunks[query.index]?).closingTagForContent
          return content.length + countClosingTags content closeTag
        else return content.length
    | none =>
        if query.kind = .htmlImport then
          return ((tables.manifestWrites query.index).map lossyLength).sum
        else do
          let parts ← prefixedPath options (← filePath tables query)
          return parts.1.length + parts.2.length

def countPieces (pieces : List OutputPiece) : Option Nat :=
  pieces.foldlM (fun count piece => do
    return count + piece.data.length + (← countQuery tables options piece.query)) 0

/-- The key that a key of the text is taken for. -/
def uniqueKeyOf (query : Query) : Option Bytes :=
  match query.kind with
  | .asset => tables.uniqueKeyForAdditionalFile[query.index]?
  | .chunk => do return (← tables.chunks[query.index]?).uniqueKey
  | .scb => do
      let index ← tables.entryPointChunkIndex[query.index]?
      return (← tables.chunks[index]?).uniqueKey
  | .htmlImport => some options.chunk.uniqueKey
  | .none => none

/-- What the second pass has written, where it stands, and the shifts so far. -/
structure Written where
  out : Bytes
  shift : SourceMapShifts
  shifts : List SourceMapShifts

def Written.push (written : Written) : Written :=
  { written with shifts := written.shifts ++ [written.shift] }

def Written.advanceAfter (written : Written) (text : Bytes) : Written :=
  { written with shift := { written.shift with after := written.shift.after.advance text } }

/-- The second pass at a key, where `key` has moved `before`. -/
def writeQuery (cap : Nat) (written : Written) (query : Query) : Option Written := do
  match ← inlineContent tables options query with
  | some content =>
      let out ←
        if query.kind = .chunk then do
          let closeTag ← (← tables.chunks[query.index]?).closingTagForContent
          memcpyEscapingClosingTags cap written.out content closeTag
        else put cap written.out content
      return ({ written with out := out }.advanceAfter content).push
  | none =>
      if query.kind = .htmlImport then do
        let out ← (tables.manifestWrites query.index).foldlM (put cap) written.out
        return { written with out := out }.push
      else do
        let filePath ← filePath tables query
        -- a file path is copied to a path buffer
        if filePath.length > options.pathBuffer then none
        else do
          let parts ← prefixedPath options (platformToPosixInPlace options.windows filePath)
          let out ← put cap written.out parts.1
          let out ← put cap out parts.2
          return (({ written with out := out }.advanceAfter parts.1).advanceAfter parts.2).push

/-- The key is looked up for the shifts only. -/
def shiftedKey (enableSourceMapShifts : Bool) (query : Query) : Option Bytes :=
  if enableSourceMapShifts then uniqueKeyOf tables options query else some []

/-- The second pass at a piece. -/
def writePiece (enableSourceMapShifts : Bool) (cap : Nat) (written : Written)
    (piece : OutputPiece) : Option Written := do
  let dataOffset := LineColumnOffset.zero.advance piece.data
  let out ← put cap written.out piece.data
  let written : Written :=
    { written with
      out := out
      shift :=
        { before := written.shift.before.add dataOffset
          after := written.shift.after.add dataOffset } }
  if piece.query.kind = .none then return written
  else do
    let key ← shiftedKey tables options enableSourceMapShifts piece.query
    let shift := { written.shift with before := written.shift.before.advance key }
    writeQuery tables options cap { written with shift := shift } piece.query

structure CodeResult where
  buffer : Bytes
  shifts : List SourceMapShifts
  displaySize : Nat

/-- A buffer of zero bytes that is written from its beginning on. -/
def filledBuffer (cap : Nat) (out : Bytes) : Bytes := out ++ List.replicate (cap - out.length) 0

def codeOfPieces (enableSourceMapShifts : Bool) (pieces : List OutputPiece) :
    Option CodeResult := do
  let count ← countPieces tables options pieces
  let debugId := if enableSourceMapShifts then debugIdComment options.chunk.isolatedHash else []
  let cap := count + debugId.length
  let zero : SourceMapShifts := { before := .zero, after := .zero }
  let written ← pieces.foldlM (writePiece tables options enableSourceMapShifts cap)
    { out := [], shift := zero, shifts := [zero] }
  let out ← put cap written.out debugId
  return { buffer := filledBuffer cap out
           shifts := if enableSourceMapShifts then written.shifts else []
           displaySize := count }

def codeWithSourceMapShifts (enableSourceMapShifts : Bool) :
    IntermediateOutput → Option CodeResult
  | .pieces pieces => codeOfPieces tables options enableSourceMapShifts pieces
  | .joiner nodes =>
      let debugId := if enableSourceMapShifts then debugIdComment options.chunk.isolatedHash else []
      some { buffer := nodes.flatten ++ debugId, shifts := [], displaySize := nodes.flatten.length }
  | .empty => some { buffer := [], shifts := [], displaySize := 0 }

end Code

end Bunx.Bundler
