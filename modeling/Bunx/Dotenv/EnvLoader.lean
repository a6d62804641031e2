/-
Module: Bunx.Dotenv.EnvLoader
Purpose: The parser of `.env` files, and the expansion of the values that are new.
Trusted boundary: none; every index and slice that the parser does not guard gives none where it is
  out of range
Main exports: parseKey, parseQuoted, parseValue, expandValue, enter, parseLoop, parseBytes
-/
import Bunx.Lib.OrderedMap
import Mathlib.Data.List.DropRight

namespace Bunx.Dotenv

open Lib

abbrev Text : Type := List UInt8

structure HashTableValue where
  value : Text
  conditional : Bool
deriving DecidableEq

/-- Keys are told apart by case. -/
abbrev Map : Type := OrderedMap Text HashTableValue

def Map.lookup (map : Map) (key : Text) : Option Text := (map.get key).map HashTableValue.value

/-! ### Bytes -/

def newline : UInt8 := 0x0A
def carriageReturn : UInt8 := 0x0D
def hash : UInt8 := 0x23
def dollar : UInt8 := 0x24
def equals : UInt8 := 0x3D
def colon : UInt8 := 0x3A
def backslash : UInt8 := 0x5C
def openBrace : UInt8 := 0x7B
def closeBrace : UInt8 := 0x7D
def doubleQuote : UInt8 := 0x22
def singleQuote : UInt8 := 0x27
def backtick : UInt8 := 0x60

/-- `WHITESPACE_CHARS`. -/
def isWhitespace (c : UInt8) : Bool :=
  c = 0x09 || c = 0x0B || c = 0x0C || c = 0x20 || c = 0xA0 || c = newline || c = carriageReturn

def isLineBreak (c : UInt8) : Bool := c = newline || c = carriageReturn

def isWordByte (c : UInt8) : Bool :=
  (0x61 ≤ c && c ≤ 0x7A) || (0x41 ≤ c && c ≤ 0x5A) || (0x30 ≤ c && c ≤ 0x39) || c = 0x5F

def isKeyByte (c : UInt8) : Bool := isWordByte c || c = 0x2D || c = 0x2E

def isQuote (c : UInt8) : Bool := c = backtick || c = doubleQuote || c = singleQuote

/-- `export`. -/
def exportWord : Text := [0x65, 0x78, 0x70, 0x6F, 0x72, 0x74]

/-- `text[start..stop]`. -/
def slice (text : Text) (start stop : Nat) : Option Text :=
  if start ≤ stop ∧ stop ≤ text.length then some ((text.drop start).take (stop - start)) else none

/-- Where a loop stops that goes on, within the text, as long as its bytes are of a kind. -/
def scanWhile (p : UInt8 → Bool) (text : Text) (pos : Nat) : Nat :=
  pos + ((text.drop pos).takeWhile p).length

def trim (text : Text) : Text := (text.dropWhile isWhitespace).rdropWhile isWhitespace

/-! ### Keys -/

def skipLine (src : Text) (pos : Nat) : Option Nat := do
  let rest ← slice src pos src.length
  match rest.findIdx? isLineBreak with
  | some i => return pos + (i + 1)
  | none => return src.length

def skipWhitespaces (src : Text) (pos : Nat) : Nat := scanWhile isWhitespace src pos

/-- What is behind a key decides whether it is one. -/
def behindKey (src key : Text) (start pos : Nat) : Option (Nat × Option Text) := do
  let c ← src[pos]?
  if c = equals then return (pos + 1, some key)
  else if c = colon ∧ src[pos + 1]?.any isWhitespace then return (pos + 2, some key)
  else return (start, none)

/-- A key that begins at `start`, or one behind `export`. -/
def parseKeyFrom (src : Text) (exported : Nat → Option (Nat × Option Text)) (start : Nat) :
    Option (Nat × Option Text) :=
  let stop := scanWhile isKeyByte src start
  if stop < src.length ∧ start < stop then
    let pos := skipWhitespaces src stop
    if pos < src.length then do
      let key ← slice src start stop
      if stop < pos ∧ key = exportWord then
        match ← exported pos with
        | (behind, some key) => some (behind, some key)
        | (pos, none) => behindKey src key start pos
      else behindKey src key start pos
    else some (start, none)
  else some (start, none)

/-- `parse_key::<false>`: nothing is exported. -/
def parseExported (src : Text) (start : Nat) : Option (Nat × Option Text) :=
  parseKeyFrom src (fun pos => some (pos, none)) start

/-- `parse_key::<true>`: the position behind, and the key if there is one. -/
def parseKey (src : Text) (pos : Nat) : Option (Nat × Option Text) :=
  parseKeyFrom src (parseExported src) (skipWhitespaces src pos)

/-! ### Values -/

/-- The bytes of a quoted value in front of `stop`, with its escapes resolved. -/
def unescape (src : Text) (quote : UInt8) (stop : Nat) : Nat → Nat → Option Text
  | 0, i => if i < stop then none else some []
  | fuel + 1, i =>
      if i < stop then do
        let c ← src[i]?
        if c = backslash then
          if quote = doubleQuote then do
            let d ← src[i + 1]?
            if d = 0x6E then return newline :: (← unescape src quote stop fuel (i + 2))
            else if d = 0x72 then return carriageReturn :: (← unescape src quote stop fuel (i + 2))
            else return (← slice src i (i + 2)) ++ (← unescape src quote stop fuel (i + 2))
          else return backslash :: (← unescape src quote stop fuel (i + 1))
        else if c = carriageReturn then
          if i + 1 ≥ stop ∨ src[i + 1]? ≠ some newline then
            return newline :: (← unescape src quote stop fuel (i + 1))
          else unescape src quote stop fuel (i + 1)
        else return c :: (← unescape src quote stop fuel (i + 1))
      else some []

/-- Whether the value is at its end behind a quote: there is a comment, a line break or nothing. -/
def isClosed (src : Text) (stop pos : Nat) : Option Bool :=
  if pos ≥ src.length then some true
  else do
    let c ← src[pos]?
    if c = hash then return true
    else return (← slice src stop pos).any isLineBreak

/-- The loop for the closing quote: the position behind the white space and the value, quotes
included, or none where there is no such quote. -/
def quotedLoop (src : Text) (quote : UInt8) (start : Nat) : Nat → Nat →
    Option (Option (Nat × Text))
  | 0, stop => if stop < src.length then none else some none
  | fuel + 1, stop =>
      if stop < src.length then do
        let c ← src[stop]?
        if c = backslash then quotedLoop src quote start fuel (stop + 2)
        else if c = quote then do
          let pos := skipWhitespaces src (stop + 1)
          if ← isClosed src (stop + 1) pos then
            return some (pos, ← unescape src quote (stop + 1) src.length start)
          -- the byte behind a quote that does not close is passed, too
          else quotedLoop src quote start fuel (stop + 2)
        else quotedLoop src quote start fuel (stop + 1)
      else some none

def parseQuoted (src : Text) (quote : UInt8) (start : Nat) : Option (Option (Nat × Text)) :=
  quotedLoop src quote start src.length (start + 1)

/-- The end of a value without quotes. -/
def isUnquoted (c : UInt8) : Bool := c ≠ hash && c ≠ carriageReturn && c ≠ newline

def parseUnquoted (src : Text) (start : Nat) : Option (Nat × Text) := do
  let stop := scanWhile isUnquoted src start
  return (stop, trim (← slice src start stop))

/-- The position behind a value, and the value. -/
def parseValue (isProcess : Bool) (src : Text) (start : Nat) : Option (Nat × Text) :=
  let pos := skipWhitespaces src start
  if pos ≥ src.length then do return (pos, ← slice src src.length src.length)
  else do
    let c ← src[pos]?
    let quoted ← if isQuote c then parseQuoted src c pos else some none
    match quoted with
    | some (pos, value) =>
        if isProcess then return (pos, value) else return (pos, ← slice value 1 (value.length - 1))
    | none => parseUnquoted src start

/-! ### Expansion -/

/-- Where the name of a reference begins. -/
def nameStart (value : Text) (pos : Nat) : Nat :=
  if value[pos + 1]? = some openBrace then pos + 2 else pos + 1

def nameEnd (value : Text) (pos : Nat) : Nat := scanWhile isWordByte value (nameStart value pos)

/-- `:-`. -/
def hasDefault (value : Text) (pos : Nat) : Bool :=
  [colon, 0x2D].isPrefixOf (value.drop (nameEnd value pos))

def isDefaultByte (c : UInt8) : Bool := c ≠ closeBrace && c ≠ backslash

/-- Where the default of a reference ends, or its name if there is none. -/
def defaultEnd (value : Text) (pos : Nat) : Nat :=
  if hasDefault value pos then scanWhile isDefaultByte value (nameEnd value pos + 2)
  else nameEnd value pos

/-- The text of a reference, and where it ends. -/
def reference (lookup : Text → Option Text) (value : Text) (pos : Nat) : Option (Text × Nat) := do
  let _ ← value[pos + 1]?
  let found := lookup (← slice value (nameStart value pos) (nameEnd value pos))
  let default ←
    if hasDefault value pos then slice value (nameEnd value pos + 2) (defaultEnd value pos)
    else some []
  let stop := defaultEnd value pos
  let stop := if value[stop]? = some closeBrace then stop + 1 else stop
  return (found.getD default, stop)

/-- What a turn does at a `$`: the position, the start of what is in the buffer, and the buffer. -/
def expandDollar (lookup : Text → Option Text) (value : Text) (pos last : Nat) (buffer : Text) :
    Option (Nat × Nat × Text) :=
  if pos > 0 ∧ value[pos - 1]? = some backslash then do
    return (pos - 1, pos - 1, (← slice value pos last) ++ buffer)
  else do
    let (text, stop) ← reference lookup value pos
    return (pos, pos, text ++ ((← slice value stop last) ++ buffer))

/-- From right to left. -/
def expandLoop (lookup : Text → Option Text) (value : Text) : Nat → Nat → Nat → Text →
    Option (Option (Nat × Text))
  | 0, _, _, _ => none
  | fuel + 1, pos, last, buffer => do
      let (pos, last, buffer) ←
        if value[pos]? = some dollar then expandDollar lookup value pos last buffer
        else some (pos, last, buffer)
      if pos = 0 then
        if last = value.length then return none else return some (last, buffer)
      else expandLoop lookup value fuel (pos - 1) last buffer

/-- The value with its references replaced, or none where there are none. -/
def expandValue (lookup : Text → Option Text) (value : Text) : Option (Option Text) :=
  if value.length < 2 then some none
  else do
    match ← expandLoop lookup value value.length (value.length - 2) value.length [] with
    | none => return none
    | some (last, buffer) =>
        if last > 0 then return some ((← slice value 0 last) ++ buffer) else return some buffer

/-! ### The file -/

/-- An entry of the file: one that was there before is only replaced when it is overridden, one of
the same file always. -/
def enter (override : Bool) (count : Nat) (map : Map) (key value : Text) : Map :=
  let replaced := map.put key fun _ => { value, conditional := false }
  match map.indexOf key with
  | some i => if i < count ∧ override = false then map else replaced
  | none => replaced

/-- Each turn takes a byte. -/
def parseLoop (override isProcess : Bool) (src : Text) (count : Nat) : Nat → Nat → Map → Option Map
  | 0, pos, map => if pos < src.length then none else some map
  | fuel + 1, pos, map =>
      if pos < src.length then do
        match ← parseKey src pos with
        | (pos, none) => parseLoop override isProcess src count fuel (← skipLine src pos) map
        | (pos, some key) => do
            let (pos, value) ← parseValue isProcess src pos
            parseLoop override isProcess src count fuel pos (enter override count map key value)
      else some map

/-- The values from a position on are expanded, one after the other. -/
def expandEntries : Nat → Nat → Map → Option Map
  | 0, _, map => some map
  | total + 1, idx, map => do
      let current ← map.values[idx]?
      match ← expandValue map.lookup current.value with
      | some value =>
          expandEntries total (idx + 1) (map.modifyAt idx fun _ => { value, conditional := false })
      | none => expandEntries total (idx + 1) map

def parseBytes (override isProcess expand : Bool) (src : Text) (map : Map) : Option Map := do
  let parsed ← parseLoop override isProcess src map.length src.length 0 map
  if !isProcess && expand then expandEntries (parsed.length - map.length) map.length parsed
  else return parsed

end Bunx.Dotenv
