/-
Module: Bunx.SourceMap.LineOffsetTable
Purpose: The table of the lines of a source: where they begin, and the columns of the bytes behind
  the first one that is not ASCII.
Trusted boundary: texts of less than 2^31 bytes, so that no column or offset overflows; what is
  reserved in advance does not matter
Main exports: LineOffsetTable, Scan, turn, generateIn, findLine, findLineWithHint, originalPosition
-/
import Bunx.SourceMap.LineColumnOffset

namespace Bunx.SourceMap

open TextOffset

/-- A line. The columns are those of the bytes from the first one that is not ASCII on. -/
structure LineOffsetTable where
  columnsForNonAscii : List Nat
  byteOffsetToFirstNonAscii : Nat
  byteOffsetToStartOfLine : Nat
deriving DecidableEq

/-- `i32::MAX`, for lines that are ASCII. -/
def noNonAscii : Nat := 2 ^ 31 - 1

/-- Where the scan has got to on the line. -/
structure Scan where
  list : List LineOffsetTable
  column : Nat
  byteOffsetToFirstNonAscii : Nat
  columnByteOffset : Nat
  lineByteOffset : Nat
  columnsForNonAscii : List Nat
deriving DecidableEq

namespace Scan

def start : Scan :=
  { list := [], column := 0, byteOffsetToFirstNonAscii := noNonAscii, columnByteOffset := 0
    lineByteOffset := 0, columnsForNonAscii := [] }

/-- The row of the line. -/
def row (s : Scan) : LineOffsetTable :=
  { columnsForNonAscii := s.columnsForNonAscii
    byteOffsetToFirstNonAscii := s.byteOffsetToFirstNonAscii
    byteOffsetToStartOfLine := s.lineByteOffset }

def beginLine (s : Scan) (offset : Nat) : Scan :=
  if s.column = 0 then { s with lineByteOffset := offset } else s

/-- The first character of a line that is not ASCII begins its table. -/
def beginTable (s : Scan) (c offset : Nat) : Scan :=
  if c > 0x7F ∧ s.columnsForNonAscii = [] then
    { s with
      columnsForNonAscii := [s.column]
      columnByteOffset := offset - s.lineByteOffset
      byteOffsetToFirstNonAscii := offset - s.lineByteOffset }
  else s

/-- The column is entered for all bytes up to `offset`; the table must not be further already. -/
def extendTable (s : Scan) (offset : Nat) : Option Scan :=
  let lineBytesSoFar := offset - s.lineByteOffset
  if offset < s.lineByteOffset ∨ lineBytesSoFar < s.columnByteOffset then none
  else
    let need := lineBytesSoFar - s.columnByteOffset + 1
    some { s with
      columnsForNonAscii := s.columnsForNonAscii ++ List.replicate need s.column
      columnByteOffset := lineBytesSoFar + 1 }

/-- The last line is ended by nothing. -/
def lastLine (s : Scan) (offset : Nat) : Option Scan :=
  let s := s.beginLine offset
  if s.columnsForNonAscii ≠ [] then s.extendTable offset else some s

def endLine (s : Scan) : Scan :=
  { start with list := s.list ++ [s.row] }

end Scan

/-- `index_of_newline_or_non_ascii_check_start::<false>`. -/
def indexFrom (remaining : Text) (offset : Nat) : Option Nat :=
  (indexOfNewlineOrNonAscii (remaining.drop offset)).map (· + offset)

/-- The bytes of a character are taken off; there must be as many as announced. -/
def takeOff (s : Scan) (remaining : Text) (len : Nat) : Option (Scan × Text) :=
  if len > remaining.length then none else some (s, remaining.drop len)

/-- The end of a turn, at a character `c` of `len` bytes. -/
def finishTurn (s : Scan) (remaining : Text) (c len : Nat) : Option (Scan × Text) :=
  if c = 0x0D ∨ c = 0x0A ∨ c = 0x2028 ∨ c = 0x2029 then
    -- `\r` in front of `\n` ends no line
    if c = 0x0D ∧ remaining[1]? = some 0x0A then
      some ({ s with column := s.column + 1 }, remaining.drop 1)
    else takeOff s.endLine remaining len
  else takeOff { s with column := s.column + (if c > 0xFFFF then 2 else 1) } remaining len

/-- The code point of `len` bytes; bytes that make none, or that are not there, give 0. -/
def codePoint (b0 : UInt8) (rest : Text) (len : Nat) : Nat :=
  if len = 1 then b0.toNat
  else (decodeWtf8Rune b0 (rest[0]?.getD 0) (rest[1]?.getD 0) (rest[2]?.getD 0) len).getD 0

/-- A turn of the scan, `offset` bytes into the source. -/
def turn (s : Scan) (offset : Nat) (b0 : UInt8) (rest : Text) : Option (Scan × Text) := do
  let remaining := b0 :: rest
  let len := wtf8ByteSequenceLength b0
  let c := codePoint b0 rest len
  let s := (s.beginLine offset).beginTable c offset
  if s.columnsForNonAscii ≠ [] then
    let s ← s.extendTable offset
    finishTurn s remaining c len
  else if 14 ≤ c ∧ c ≤ 127 then
    match indexFrom remaining len with
    | some j => some ({ s with column := s.column + j }, remaining.drop j)
    | none => some ({ s with column := s.column + remaining.length }, [])
  else finishTurn s remaining c len

/-- Each turn takes a byte. -/
def scanLoop (contents : Text) : Nat → Scan → Text → Option Scan
  | 0, s, _ => some s
  | _, s, [] => some s
  | fuel + 1, s, b0 :: rest => do
      let (s, remaining) ← turn s (contents.length - (b0 :: rest).length) b0 rest
      scanLoop contents fuel s remaining

/-- The rows of the lines of a source, or none where the scan leaves it. -/
def generateIn (contents : Text) : Option (List LineOffsetTable) := do
  let s ← scanLoop contents contents.length Scan.start contents
  let s ← s.lastLine contents.length
  return s.list ++ [s.row]

/-! ### Lines of offsets -/

/-- The binary search of `find_line`. -/
def findLineLoop (offsets : List Nat) (loc : Nat) : Nat → Nat → Nat → Option Nat
  | 0, originalLine, _ => some originalLine
  | fuel + 1, originalLine, count =>
      if count > 0 then do
        let step := count / 2
        let i := originalLine + step
        if (← offsets[i]?) ≤ loc then findLineLoop offsets loc fuel (i + 1) (count - step - 1)
        else findLineLoop offsets loc fuel originalLine step
      else some originalLine

/-- -1 in front of the first line. -/
def findLine (offsets : List Nat) (loc : Nat) : Option Int := do
  return (← findLineLoop offsets loc offsets.length 0 offsets.length) - 1

def findLineWithHint (offsets : List Nat) (loc hint : Nat) : Option Int :=
  let ends (i : Nat) : Bool := i = offsets.length || decide (∃ next ∈ offsets[i]?, loc < next)
  if decide (∃ here ∈ offsets[hint]?, here ≤ loc) then
    if ends (hint + 1) then some hint
    else if ends (hint + 2) then some (hint + 1)
    else if ends (hint + 3) then some (hint + 2)
    else findLine offsets loc
  else findLine offsets loc

/-- The original line and column that `add_source_mapping` finds for an offset. -/
def originalPosition (table : List LineOffsetTable) (loc hint : Nat) : Option (Int × Int) := do
  let originalLine ←
    findLineWithHint (table.map LineOffsetTable.byteOffsetToStartOfLine) loc hint
  let row ← table[originalLine.toNat]?
  let originalColumn : Int := loc - row.byteOffsetToStartOfLine
  if originalColumn ≥ row.byteOffsetToFirstNonAscii ∧ row.columnsForNonAscii ≠ [] then
    let column ← row.columnsForNonAscii[(originalColumn - row.byteOffsetToFirstNonAscii).toNat]?
    return (originalLine, column)
  else return (originalLine, originalColumn)

end Bunx.SourceMap
