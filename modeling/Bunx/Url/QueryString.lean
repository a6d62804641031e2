/-
Module: Bunx.Url.QueryString
Purpose: Reading a query string into a map of its parameters, as the code does it.
Trusted boundary: query strings are below 4 GiB, so that no 32-bit offset is cut; the hash of a
  name is a parameter; the allocator serves every request.
Main exports:
  decode, StringPointer, ScannerResult, next, results, Param, addResult, QueryStringMap,
  QueryStringMap.str, init
-/
import Mathlib.Algebra.Ring.Int.Defs
import Mathlib.Algebra.Ring.Nat

namespace Bunx.Url

abbrev Bytes := List UInt8

def percent : UInt8 := 0x25
def ampersand : UInt8 := 0x26
def plus : UInt8 := 0x2b
def equalsSign : UInt8 := 0x3d
def questionMark : UInt8 := 0x3f

/-! ### Percent encoding -/

def isAsciiHexdigit (c : UInt8) : Bool :=
  (0x30 ≤ c && c ≤ 0x39) || (0x41 ≤ c && c ≤ 0x46) || (0x61 ≤ c && c ≤ 0x66)

/-- `to_ascii_hex_value` of a digit. -/
def toAsciiHexValue (c : UInt8) : UInt8 :=
  if c ≤ 0x39 then c - 0x30 else if c ≤ 0x46 then c - 0x41 + 10 else c - 0x61 + 10

/-- `PercentEncoding::decode`: what is written, and whether the input was read to its end. -/
def decode : Bytes → Bytes × Bool
  | [] => ([], true)
  | c :: rest =>
      if c = percent then
        match rest with
        | a :: b :: behind =>
            if isAsciiHexdigit a && isAsciiHexdigit b then
              let (written, done) := decode behind
              ((toAsciiHexValue a <<< 4 ||| toAsciiHexValue b) :: written, done)
            else ([], false)
        | _ => ([], false)
      else
        let (written, done) := decode rest
        (c :: written, done)

/-! ### The scanner -/

structure StringPointer where
  offset : Nat := 0
  length : Nat := 0
deriving Repr, DecidableEq

/-- The bytes that a pointer stands for. -/
def StringPointer.read (ptr : StringPointer) (text : Bytes) : Bytes :=
  (text.drop ptr.offset).take ptr.length

structure ScannerResult where
  nameNeedsDecoding : Bool
  valueNeedsDecoding : Bool
  name : StringPointer
  value : StringPointer
deriving Repr, DecidableEq

def needsDecoding (c : UInt8) : Bool := c == percent || c == plus

/-- The loop over a name: how long it is, whether it needs decoding, and the byte that ends it. -/
def scanName (relativeI : Nat) (needs : Bool) : Bytes → Nat × Bool × Option UInt8
  | [] => (relativeI, needs, none)
  | c :: rest =>
      if c = equalsSign ∨ c = ampersand then (relativeI, needs, some c)
      else scanName (relativeI + 1) (needs || needsDecoding c) rest

/-- The loop over a value. -/
def scanValue (relativeI : Nat) (needs : Bool) : Bytes → Nat × Bool
  | [] => (relativeI, needs)
  | c :: rest =>
      if c = ampersand then (relativeI, needs)
      else scanValue (relativeI + 1) (needs || needsDecoding c) rest

/-- `Scanner::next` at the index `i`, with the index behind; each turn moves it, so the length is
fuel enough. -/
def next (queryString : Bytes) : Nat → Nat → Option ScannerResult × Nat
  | 0, i => (none, i)
  | fuel + 1, i =>
      if i ≥ queryString.length then (none, i)
      else
        let slice := queryString.drop i
        match scanName 0 false slice with
        | (relativeI, nameNeeds, none) =>
            if relativeI = 0 then (none, i)
            else (some ⟨nameNeeds, false, ⟨i, relativeI⟩, {}⟩, i + relativeI)
        | (relativeI, nameNeeds, some c) =>
            if c = equalsSign then
              let offset := relativeI + 1
              let (stop, valueNeeds) := scanValue offset false (slice.drop offset)
              if relativeI = 0 then (none, i + stop)
              else
                (some ⟨nameNeeds, valueNeeds, ⟨i, relativeI⟩, ⟨offset + i, stop - offset⟩⟩,
                  i + stop)
            else if relativeI > 0 then
              (some ⟨nameNeeds, false, ⟨i, relativeI⟩, {}⟩, i + relativeI)
            else next queryString fuel (i + (slice.takeWhile (· == ampersand)).length)

/-- `Scanner::init`. -/
def scannerStart (queryString : Bytes) : Nat :=
  if queryString.head? = some questionMark then 1 else 0

/-- What `next` gives from the index `i` on until it gives nothing. -/
def resultsFrom (queryString : Bytes) : Nat → Nat → List ScannerResult
  | 0, _ => []
  | fuel + 1, i =>
      match next queryString (queryString.length + 1) i with
      | (none, _) => []
      | (some result, i) => result :: resultsFrom queryString fuel i

def results (queryString : Bytes) : List ScannerResult :=
  resultsFrom queryString (queryString.length + 1) (scannerStart queryString)

/-! ### The map -/

def maxQueryStringParams : Nat := 2048

structure Param where
  name : StringPointer
  value : StringPointer
  nameHash : UInt64
deriving Repr, DecidableEq

structure QueryStringMap where
  list : List Param
  slice : Bytes
deriving Repr, DecidableEq

/-- `str`; nothing where the range leaves the slice. -/
def QueryStringMap.str (map : QueryStringMap) (ptr : StringPointer) : Option Bytes :=
  if ptr.offset + ptr.length ≤ map.slice.length then some (ptr.read map.slice) else none

section

variable (wyhash : Bytes → UInt64)

/-- The list, the buffer and the position behind the bytes of the buffer that are accounted for. -/
structure Building where
  list : List Param := []
  buf : Bytes := []
  bufWriterPos : Nat := 0
deriving Repr, DecidableEq

/-- Decode a range of the query string into the buffer; the pointer to what was written there,
unless the range is malformed. -/
def Building.decodeInto (b : Building) (input : Bytes) : Building × Option StringPointer :=
  let (written, done) := decode input
  let buf := b.buf ++ written
  if done then
    ({ b with buf := buf, bufWriterPos := b.bufWriterPos + written.length },
      some ⟨b.bufWriterPos, written.length⟩)
  else ({ b with buf := buf }, none)

/-- The name of an entry and its hash; none for a malformed one. -/
def Building.addName (queryString : Bytes) (result : ScannerResult) (b : Building) :
    Building × Option (StringPointer × UInt64) :=
  let rawName := result.name.read queryString
  if result.nameNeedsDecoding then
    match b.decodeInto rawName with
    | (b, none) => (b, none)
    | (b, some name) => (b, some (name, wyhash (name.read b.buf)))
  else
    let nameHash := wyhash rawName
    match b.list.find? (·.nameHash = nameHash) with
    | some param => (b, some (param.name, nameHash))
    | none =>
        match b.decodeInto rawName with
        | (b, none) => (b, none)
        | (b, some name) => (b, some (name, nameHash))

/-- One turn of the loop that decodes. -/
def addResult (queryString : Bytes) (b : Building) (result : ScannerResult) : Building :=
  if b.list.length ≥ maxQueryStringParams then b
  else
    match b.addName wyhash queryString result with
    | (b, none) => b
    | (b, some (name, nameHash)) =>
        match b.decodeInto (result.value.read queryString) with
        | (b, none) => b
        | (b, some value) => { b with list := b.list ++ [⟨name, value, nameHash⟩] }

/-- `QueryStringMap::init`. -/
def init (queryString : Bytes) : Option QueryStringMap :=
  let scanned := results queryString
  let counted := scanned.take maxQueryStringParams
  if counted = [] then none
  else if counted.all fun result => !result.nameNeedsDecoding && !result.valueNeedsDecoding then
    some
      { list := counted.map fun result =>
          ⟨result.name, result.value, wyhash (result.name.read queryString)⟩
        slice := queryString }
  else
    let b := scanned.foldl (addResult wyhash queryString) {}
    some { list := b.list, slice := b.buf.take b.bufWriterPos }

end

end Bunx.Url
