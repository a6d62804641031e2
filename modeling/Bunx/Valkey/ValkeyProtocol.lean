/-
Module: Bunx.Valkey.ValkeyProtocol
Purpose: Reading replies of the RESP protocol and finding their ends in a growing buffer,
  as the code does it.
Trusted boundary: reading a floating point number is a parameter; the allocator serves every
  request, so the budget for reserved capacity is left out; buffers are shorter than 2^63.
Main exports:
  RedisError, RESPType, RESPValue, ValkeyReader, Read, readUntilCrlf, readValue,
  ReplyScanner, scanOne, ReplyScanner.scan
-/
import Mathlib.Control.Monad.Basic
import Bunx.Patch.PatchFile
import Bunx.Lib.Resumable

namespace Bunx.Valkey

abbrev Bytes := List UInt8

/-- The errors the reader and the scanner give. -/
inductive RedisError where
  | invalidArray
  | invalidAttribute
  | invalidBlobError
  | invalidBoolean
  | invalidBulkString
  | invalidDouble
  | invalidInteger
  | invalidMap
  | invalidPush
  | invalidResponse
  | invalidResponseType
  | invalidSet
  | invalidVerbatimString
  | nestingDepthExceeded
  | lineTooLong
deriving Repr, DecidableEq

inductive RESPType where
  | simpleString
  | error
  | integer
  | bulkString
  | array
  | null
  | double
  | boolean
  | blobError
  | verbatimString
  | map
  | set
  | attribute
  | push
  | bigNumber
deriving Repr, DecidableEq

namespace RESPType

/-- The byte that starts a reply of the type. -/
def toByte : RESPType → UInt8
  | .simpleString => 0x2b
  | .error => 0x2d
  | .integer => 0x3a
  | .bulkString => 0x24
  | .array => 0x2a
  | .null => 0x5f
  | .double => 0x2c
  | .boolean => 0x23
  | .blobError => 0x21
  | .verbatimString => 0x3d
  | .map => 0x25
  | .set => 0x7e
  | .attribute => 0x7c
  | .push => 0x3e
  | .bigNumber => 0x28

def all : List RESPType :=
  [.simpleString, .error, .integer, .bulkString, .array, .null, .double, .boolean, .blobError,
    .verbatimString, .map, .set, .attribute, .push, .bigNumber]

def fromByte (byte : UInt8) : Option RESPType := all.find? fun ty => byte == ty.toByte

end RESPType

structure VerbatimString where
  format : Bytes
  content : Bytes
deriving Repr, DecidableEq

/-- A reply; `δ` are the floating point numbers. -/
inductive RESPValue (δ : Type) where
  | simpleString (str : Bytes)
  | error (str : Bytes)
  | integer (int : Int)
  | bulkString (str : Option Bytes)
  | array (items : List (RESPValue δ))
  | null
  | double (d : δ)
  | boolean (b : Bool)
  | blobError (str : Bytes)
  | verbatimString (str : VerbatimString)
  | map (entries : List (RESPValue δ × RESPValue δ))
  | set (items : List (RESPValue δ))
  | attribute (attributes : List (RESPValue δ × RESPValue δ)) (value : RESPValue δ)
  | push (kind : Bytes) (data : List (RESPValue δ))
  | bigNumber (str : Bytes)

/-- Floating point numbers and the reading of one, `parse_f64`. -/
structure Floats (δ : Type) where
  infinity : δ
  negInfinity : δ
  nan : δ
  parse : Bytes → Option δ

/-! ### The reader -/

/-- What a reader of replies keeps. -/
structure ValkeyReader where
  buffer : Bytes
  pos : Nat
  crlfSkip : Nat
deriving Repr, DecidableEq

namespace ValkeyReader

/-- A reader at the start of a buffer. -/
def init (buffer : Bytes) : ValkeyReader := { buffer := buffer, pos := 0, crlfSkip := 0 }

/-- The bytes not read yet. -/
def unread (r : ValkeyReader) : Bytes := r.buffer.drop r.pos

end ValkeyReader

/-- A step of the reader; the reader stays where it was when an error came up. -/
abbrev Read (α : Type) := ExceptT RedisError (StateM ValkeyReader) α

/-- The outcome of a step, and the reader after it. -/
def Read.runOn {α : Type} (x : Read α) (r : ValkeyReader) : Except RedisError α × ValkeyReader :=
  (ExceptT.run x).run r

def maxNestingDepth : Nat := 128

def maxBulkLen : Int := 512 * 1024 * 1024

def maxLineLen : Nat := 512 * 1024

def readByte : Read UInt8 := do
  let r ← get
  match r.buffer[r.pos]? with
  | none => throw .invalidResponse
  | some byte =>
      set { r with pos := r.pos + 1 }
      return byte

/-- Do a carriage return and a line feed stand here? -/
def crlfAt (buffer : Bytes) (i : Nat) : Bool :=
  buffer[i]? == some 0x0d && buffer[i + 1]? == some 0x0a

/-- The first line end in `buffer` from `skip` on whose carriage return is before the limit
of a line. -/
def findCrlf (buffer : Bytes) (skip : Nat) : Option Nat :=
  let limit := min buffer.length (maxLineLen + 1)
  let start := min skip limit
  (List.range' start (limit - start)).find? (crlfAt buffer)

def readUntilCrlf : Read Bytes := do
  let r ← get
  match findCrlf r.unread r.crlfSkip with
  | some i =>
      set { r with crlfSkip := 0, pos := r.pos + (i + 2) }
      return r.unread.take i
  | none =>
      set { r with crlfSkip := 0 }
      if r.unread.length > maxLineLen + 1 then throw .lineTooLong
      throw .invalidResponse

/-- `parse_int::<i64>`. -/
def parseInt (buf : Bytes) (radix : Nat) : Option Int :=
  match buf with
  | [] => none
  | c :: rest =>
      let neg : Bool := c = 0x2d
      let digits := if c = 0x2b ∨ c = 0x2d then rest else c :: rest
      match Patch.parseWithSign digits radix with
      | none => none
      | some acc =>
          let value : Int := if neg then -(acc : Int) else acc
          if -2 ^ 63 ≤ value ∧ value < 2 ^ 63 then some value else none

def readInteger : Read Int := do
  let str ← readUntilCrlf
  match parseInt str 10 with
  | some int => return int
  | none => throw .invalidInteger

def readDouble {δ : Type} (floats : Floats δ) : Read δ := do
  let str ← readUntilCrlf
  if str = Patch.ascii "inf" then return floats.infinity
  if str = Patch.ascii "-inf" then return floats.negInfinity
  if str = Patch.ascii "nan" then return floats.nan
  match floats.parse str with
  | some d => return d
  | none => throw .invalidDouble

def readBoolean : Read Bool := do
  match ← readUntilCrlf with
  | [0x74] => return true
  | [0x66] => return false
  | _ => throw .invalidBoolean

/-- The payload of a string whose length was read, and the line end behind it; `short` is the
error when the buffer ends in it, `invalid` the one when something stands before the line end. -/
def readPayload (len : Nat) (short invalid : RedisError) : Read Bytes := do
  let r ← get
  if r.pos + len > r.buffer.length then throw short
  let str := (r.buffer.drop r.pos).take len
  set { r with pos := r.pos + len }
  let crlf ← readUntilCrlf
  if crlf ≠ [] then throw invalid
  return str

def readVerbatimString : Read VerbatimString := do
  let len ← readInteger
  if ¬ (0 ≤ len ∧ len ≤ maxBulkLen) then throw .invalidVerbatimString
  let contentWithFormat ← readPayload len.toNat .invalidVerbatimString .invalidVerbatimString
  if contentWithFormat.length < 4 ∨ contentWithFormat[3]? ≠ some 0x3a then
    throw .invalidVerbatimString
  return { format := contentWithFormat.take 3, content := contentWithFormat.drop 4 }

/-- The element loop of an aggregate. -/
def readMany {α : Type} (element : Read α) : Nat → Read (List α)
  | 0 => return []
  | len + 1 => do
      let value ← element
      let values ← readMany element len
      return value :: values

/-- A key and its value. -/
def readEntry {α : Type} (element : Read α) : Read (α × α) := do
  let key ← element
  let value ← element
  return (key, value)

/-- The name of a push message. -/
def pushKind {δ : Type} : RESPValue δ → Option Bytes
  | .simpleString str => some str
  | .bulkString str => str
  | _ => none

/-- The header of an aggregate: its length, unless it is nested too deep. -/
def readAggregateLen (depth : Nat) : Read Int := do
  if depth ≥ maxNestingDepth then throw .nestingDepthExceeded
  readInteger

/-- `read_value_with_depth`; `child` is the call of itself one level deeper. -/
def readElement {δ : Type} (floats : Floats δ) (depth : Nat) (child : Read (RESPValue δ)) :
    Read (RESPValue δ) := do
  let typeByte ← readByte
  match RESPType.fromByte typeByte with
  | none => throw .invalidResponseType
  | some .simpleString => return .simpleString (← readUntilCrlf)
  | some .error => return .error (← readUntilCrlf)
  | some .integer => return .integer (← readInteger)
  | some .bulkString =>
      let len ← readInteger
      if len < 0 then return .bulkString none
      if len > maxBulkLen then throw .invalidBulkString
      let str ← readPayload len.toNat .invalidResponse .invalidBulkString
      return .bulkString (some str)
  | some .array =>
      let len ← readAggregateLen depth
      if len < 0 then return .array []
      return .array (← readMany child len.toNat)
  | some .null =>
      let _ ← readUntilCrlf
      return .null
  | some .double => return .double (← readDouble floats)
  | some .boolean => return .boolean (← readBoolean)
  | some .blobError =>
      let len ← readInteger
      if ¬ (0 ≤ len ∧ len ≤ maxBulkLen) then throw .invalidBlobError
      let str ← readPayload len.toNat .invalidBlobError .invalidBlobError
      return .blobError str
  | some .verbatimString => return .verbatimString (← readVerbatimString)
  | some .map =>
      let len ← readAggregateLen depth
      if len < 0 then throw .invalidMap
      return .map (← readMany (readEntry child) len.toNat)
  | some .set =>
      let len ← readAggregateLen depth
      if len < 0 then throw .invalidSet
      return .set (← readMany child len.toNat)
  | some .attribute =>
      let len ← readAggregateLen depth
      if len < 0 then throw .invalidAttribute
      let attrs ← readMany (readEntry child) len.toNat
      let value ← child
      return .attribute attrs value
  | some .push =>
      let len ← readAggregateLen depth
      if len ≤ 0 then throw .invalidPush
      match pushKind (← child) with
      | none => throw .invalidPush
      | some kind =>
          let data ← readMany child (len - 1).toNat
          return .push kind data
  | some .bigNumber => return .bigNumber (← readUntilCrlf)

/-- The reader of a value that may hold `levels` levels more. An element of the deepest level
never reads a child. -/
def readValueWithin {δ : Type} (floats : Floats δ) : Nat → Read (RESPValue δ)
  | 0 => readElement floats maxNestingDepth (throw .nestingDepthExceeded)
  | levels + 1 =>
      readElement floats (maxNestingDepth - (levels + 1)) (readValueWithin floats levels)

def readValueWithDepth {δ : Type} (floats : Floats δ) (depth : Nat) : Read (RESPValue δ) :=
  readValueWithin floats (maxNestingDepth - depth)

/-- `read_value`: a whole reply. -/
def readValue {δ : Type} (floats : Floats δ) : Read (RESPValue δ) := readValueWithDepth floats 0

/-! ### The scanner -/

inductive ScanResult where
  | complete
  | needMoreData
deriving Repr, DecidableEq

/-- How far a scan has come. The counts of the aggregates begun stand with the innermost
first. -/
structure ReplyScanner where
  pos : Nat := 0
  stack : List Nat := []
  crlfSkip : Nat := 0
deriving Repr, DecidableEq

def u64Max : Nat := 2 ^ 64 - 1

def saturatingMul (a b : Nat) : Nat := min (a * b) u64Max

def saturatingAdd (a b : Nat) : Nat := min (a + b) u64Max

/-- The end of a payload: it and its line end are passed without being looked at. -/
def skipPayload (len : Nat) (invalid : RedisError) : Read Unit := do
  let r ← get
  if r.buffer.length - r.pos < len + 2 then throw .invalidResponse
  if r.buffer[r.pos + len]? ≠ some 0x0d ∨ r.buffer[r.pos + len + 1]? ≠ some 0x0a then
    throw invalid
  set { r with pos := r.pos + (len + 2) }

/-- The error of a string type whose length or end is wrong. -/
def invalidString : RESPType → RedisError
  | .blobError => .invalidBlobError
  | .verbatimString => .invalidVerbatimString
  | _ => .invalidBulkString

/-- `scan_one`: pass one element; an aggregate gives the number of its children. -/
def scanOne (depth : Nat) : Read (Option Nat) := do
  let typeByte ← readByte
  match RESPType.fromByte typeByte with
  | none => throw .invalidResponseType
  | some ty =>
      match ty with
      | .simpleString | .error | .integer | .null | .double | .boolean | .bigNumber =>
          let _ ← readUntilCrlf
          return none
      | .bulkString | .blobError | .verbatimString =>
          let len ← readInteger
          if len < 0 then
            if ty = .bulkString then return none else throw (invalidString ty)
          if len > maxBulkLen then throw (invalidString ty)
          skipPayload len.toNat (invalidString ty)
          return none
      | .array =>
          let len ← readAggregateLen depth
          if len < 0 then return some 0
          return some len.toNat
      | .set =>
          let len ← readAggregateLen depth
          if len < 0 then throw .invalidSet
          return some len.toNat
      | .push =>
          let len ← readAggregateLen depth
          if len ≤ 0 then throw .invalidPush
          return some len.toNat
      | .map =>
          let len ← readAggregateLen depth
          if len < 0 then throw .invalidMap
          return some (saturatingMul len.toNat 2)
      | .attribute =>
          let len ← readAggregateLen depth
          if len < 0 then throw .invalidAttribute
          return some (saturatingAdd (saturatingMul len.toNat 2) 1)

namespace ReplyScanner

/-- An element is finished: so is every aggregate that it completes. -/
def unwind : List Nat → List Nat
  | [] => []
  | remaining :: outer =>
      if remaining - 1 > 0 then (remaining - 1) :: outer else unwind outer

/-- The reader of one turn. -/
def reader (s : ReplyScanner) (buffer : Bytes) : ValkeyReader :=
  { buffer := buffer, pos := s.pos, crlfSkip := s.crlfSkip }

/-- One turn of the loop of `scan`. -/
def scanTurn (buffer : Bytes) (s : ReplyScanner) :
    Option (Except RedisError ScanResult) × ReplyScanner :=
  match (scanOne s.stack.length).runOn (s.reader buffer) with
  | (.error .invalidResponse, reader) =>
      let crlfSkip :=
        if reader.pos = s.pos + 1 then (buffer.length - reader.pos) - 1 else 0
      (some (.ok .needMoreData), { s with crlfSkip := crlfSkip })
  | (.error err, _) => (some (.error err), s)
  | (.ok (some (children + 1)), reader) =>
      (none, { pos := reader.pos, stack := (children + 1) :: s.stack, crlfSkip := 0 })
  | (.ok _, reader) =>
      let t := { pos := reader.pos, stack := unwind s.stack, crlfSkip := 0 }
      (if t.stack = [] then some (.ok .complete) else none, t)

/-- `scan`. Every turn that goes on passes at least one byte. -/
def scan (s : ReplyScanner) (buffer : Bytes) : Except RedisError ScanResult × ReplyScanner :=
  Lib.turns (.ok .needMoreData) (scanTurn buffer) (buffer.length + 1) s

end ReplyScanner

end Bunx.Valkey
