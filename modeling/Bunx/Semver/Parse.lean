/-
Module: Bunx.Semver.Parse
Purpose: The version parser and the tag parser behind it, and how a version is printed.
Trusted boundary: built without debug assertions; a tag that is printed is ASCII.
Main exports:
  SlicedString, Tag.parseWithPreCount, parseVersionNumber, Version.parse, Version.fmt
-/
import Bunx.Semver.SemverString
import Mathlib.Tactic.SplitIfs

namespace Bunx.Semver

/-- `&s[start..stop]` and `&s[start..]` where the bounds are known to hold. -/
def Slice.part (s : Slice) (start stop : Nat) : Slice where
  addr := s.addr + start
  bytes := (s.bytes.drop start).take (stop - start)

def Slice.from (s : Slice) (start : Nat) : Slice where
  addr := s.addr + start
  bytes := s.bytes.drop start

structure SlicedString where
  buf : Slice
  slice : Slice
deriving Repr

namespace SlicedString

def sub (s : SlicedString) (input : Slice) : SlicedString := { s with slice := input }

/-- The string of a slice, taken for what it reads in its buffer, and the hash beside it. -/
def external (wyhash : Bytes → UInt64) (s : SlicedString) : ExternalString where
  value := (SemverString.init s.buf s.slice).slice s.buf.bytes
  hash := wyhash s.slice.bytes

end SlicedString

/-! ### Tags -/

def isAsciiAlphabetic (c : UInt8) : Bool :=
  (0x61 ≤ c && c ≤ 0x7a) || (0x41 ≤ c && c ≤ 0x5a)

/-- A byte of a tag that opens no new part. -/
def isTagByte (c : UInt8) : Bool := isAsciiAlphabetic c || isDigit c || c == 0x2e

inductive TagState where
  | none
  | pre
  | build
deriving Repr, Inhabited, DecidableEq

/-- The loop variables of the tag parser. -/
structure TagCursor where
  state : TagState := .none
  start : Nat := 0
  tag : Tag := {}
deriving Repr, DecidableEq

structure TagResult where
  tag : Tag := {}
  len : Nat := 0
deriving Repr, DecidableEq

section

variable (wyhash : Bytes → UInt64) (s : SlicedString)

namespace TagCursor

/-- The part that ends at `i` goes into the tag. -/
def setPre (t : TagCursor) (i : Nat) : Tag :=
  { t.tag with pre := (s.sub (s.slice.part t.start i)).external wyhash }

def setBuild (t : TagCursor) (i : Nat) : Tag :=
  { t.tag with build := (s.sub (s.slice.part t.start i)).external wyhash }

/-- The arm of `+`. -/
def plus (initialPreCount i : Nat) (t : TagCursor) : TagCursor :=
  let t :=
    if t.state = .pre ∨ (t.state = .none ∧ initialPreCount > 0) then
      { t with tag := t.setPre wyhash s i }
    else t
  if t.state ≠ .build then { t with state := .build, start := i + 1 } else t

/-- The arm of `-`. -/
def minus (i : Nat) (t : TagCursor) : TagCursor :=
  if t.state ≠ .pre then { t with state := .pre, start := i + 1 } else t

/-- The tag with the part that is open at `i`. -/
def close (i : Nat) (t : TagCursor) : Tag :=
  match t.state with
  | .none => t.tag
  | .pre => t.setPre wyhash s i
  | .build => t.setBuild wyhash s i

end TagCursor

/-- The bytes from `i` on: where the loop ends and its variables there. -/
def tagLoop (initialPreCount : Nat) : Bytes → Nat → TagCursor → Nat × TagCursor
  | [], i, t => (i, t)
  | c :: rest, i, t =>
      if c = 0x2b then tagLoop initialPreCount rest (i + 1) (t.plus wyhash s initialPreCount i)
      else if c = 0x2d then tagLoop initialPreCount rest (i + 1) (t.minus i)
      else if isTagByte c then tagLoop initialPreCount rest (i + 1) t
      else (i, { t with tag := t.close wyhash s i, state := .none })

def Tag.parseWithPreCount (initialPreCount : Nat) : TagResult :=
  let word := s.slice.bytes.takeWhile (· ≠ 0x20)
  let buildCount := word.count 0x2b % 2 ^ 32
  let preCount := (initialPreCount + word.count 0x2d) % 2 ^ 32
  if buildCount = 0 ∧ preCount = 0 then {}
  else
    let (i, t) := tagLoop wyhash s initialPreCount s.slice.bytes 0 {}
    let t :=
      if t.state = .none ∧ initialPreCount > 0 then { t with state := .pre, start := 0 }
      else t
    { tag := t.close wyhash s i, len := i % 2 ^ 32 }

def Tag.parse : TagResult := Tag.parseWithPreCount wyhash s 0

end

/-! ### Versions -/

/-- `x`, `X` or `*`. -/
def isWildcardByte (c : UInt8) : Bool := c == 0x78 || c == 0x58 || c == 0x2a

/-- The loop of `parse_version_number` over its 20-byte buffer. -/
def versionNumberBytes : Bytes → Bytes → Option Bytes
  | [], bytes => some bytes
  | c :: rest, bytes =>
      if isWildcardByte c then none
      else if isDigit c then
        if bytes.length + 1 > 20 then none else versionNumberBytes rest (bytes ++ [c])
      else if c = 0x20 ∨ c = 0x2e then some bytes
      else versionNumberBytes rest bytes

def parseVersionNumber (input : Bytes) : Option Nat :=
  match versionNumberBytes input [] with
  | none => none
  | some bytes => if bytes = [] then none else some ((parseAscii bytes).getD 0)

structure ParseResult where
  wildcard : Wildcard := .none
  valid : Bool := true
  version : Partial := {}
  len : Nat := 0
deriving Repr, DecidableEq

/-- The loop variables of the version parser. -/
structure ParseCursor where
  i : Nat := 0
  partI : Nat := 0
  result : ParseResult := {}
deriving Repr, DecidableEq

/-- One turn of the parser's loop: go on, or `break`. -/
inductive Turn where
  | next (c : ParseCursor)
  | done (c : ParseCursor)
deriving Repr, DecidableEq

namespace ParseCursor

def invalid (c : ParseCursor) : ParseCursor :=
  { c with result := { c.result with valid := false } }

def setTag (c : ParseCursor) (i : Nat) (tag : Tag) : ParseCursor :=
  { c with
    i := i
    result := { c.result with version := { c.result.version with tag := tag } } }

/-- The next of the three numbers; a fourth is dropped. -/
def setNumber (c : ParseCursor) (number : Option Nat) : ParseCursor :=
  let version := c.result.version
  match c.partI with
  | 0 => { c with partI := 1, result := { c.result with version := { version with major := number } } }
  | 1 => { c with partI := 2, result := { c.result with version := { version with minor := number } } }
  | 2 => { c with partI := 3, result := { c.result with version := { version with patch := number } } }
  | _ => c

/-- The first wildcard stands for the part it is written at. -/
def setWildcard (c : ParseCursor) : ParseCursor :=
  if c.result.wildcard = .none then
    match c.partI with
    | 0 => { c with partI := 1, result := { c.result with wildcard := .major } }
    | 1 => { c with partI := 2, result := { c.result with wildcard := .minor } }
    | 2 => { c with partI := 3, result := { c.result with wildcard := .patch } }
    | _ => c
  else c

end ParseCursor

section

variable (wyhash : Bytes → UInt64) (s : SlicedString)

/-- The match on `input[i]`. -/
def parseTurn (c : ParseCursor) (ch : UInt8) : Turn :=
  let input := s.slice.bytes
  let run (p : UInt8 → Bool) : Nat := c.i + 1 + ((input.drop (c.i + 1)).takeWhile p).length
  if ch = 0x20 then .done c
  else if ch ∈ [0x7c, 0x5e, 0x23, 0x26, 0x25, 0x21] then .done { c with i := c.i - 1 }
  else if isDigit ch then
    let lastCharI := run isDigit
    let after := c.setNumber (parseVersionNumber (s.slice.part c.i lastCharI).bytes)
    -- a dot is expected only in front of another number
    if input[lastCharI]? = some 0x2e ∧ after.partI ≠ 3 then
      .next { after with i := lastCharI + 1 }
    else .next { after with i := lastCharI }
  else if ch = 0x2e then .done c.invalid
  else if ch = 0x2d ∨ ch = 0x2b then
    if c.partI < 2 ∧ c.result.wildcard = .none then .done c.invalid
    else
      let i := c.i + ((input.drop c.i).takeWhile (· = 0x20)).length
      let tagResult := Tag.parse wyhash (s.sub (s.slice.from c.i))
      .done (c.setTag (i + tagResult.len) tagResult.tag)
  else if isWildcardByte ch then
    let lastCharI := run isWildcardByte
    let i := if input[lastCharI]? = some 0x2e then lastCharI + 1 else lastCharI
    .next { c.setWildcard with i := i }
  else if c.result.wildcard = .none ∧ c.partI ≥ 2 ∧ isAsciiAlphabetic ch then
    -- `1.0.0rc.1`: a tag without its dash
    let tagResult := Tag.parseWithPreCount wyhash (s.sub (s.slice.from c.i)) 1
    .done (c.setTag (c.i + tagResult.len) tagResult.tag)
  else .done c.invalid

/-- `fuel` bounds the turns; `parseLoop_succ` says when it is enough. -/
def parseLoop : Nat → ParseCursor → ParseCursor
  | 0, c => c
  | fuel + 1, c =>
      match s.slice.bytes[c.i]? with
      | none => c
      | some ch =>
          match parseTurn wyhash s c ch with
          | .next c => parseLoop fuel c
          | .done c => c

/-- Whitespace, `v` and `=` in front of a version. -/
def isSkipped (c : UInt8) : Bool :=
  c ∈ [0x20, 0x09, 0x0a, 0x0d, 0x0b, 0x0c, 0x76, 0x3d]

/-- The index of the first byte that is not skipped, and 0 where all are. -/
def skipPrefix (input : Bytes) : Nat := (input.findIdx? fun c => !isSkipped c).getD 0

/-- `none` is the panic of a cast to 32 bits. -/
def Version.parse : Option ParseResult :=
  let input := s.slice.bytes
  if input = [] then some { valid := false }
  else if skipPrefix input = input.length then some { valid := false }
  else
    let c := parseLoop wyhash s input.length { i := skipPrefix input }
    let wildcard :=
      if c.result.wildcard = .none then
        match c.partI with
        | 0 => .major
        | 1 => .minor
        | 2 => .patch
        | _ => .none
      else c.result.wildcard
    if c.i < 2 ^ 32 then some { c.result with wildcard := wildcard, len := c.i } else none

/-- `parse_utf8`. -/
def Version.parseUtf8 (wyhash : Bytes → UInt64) (slice : Slice) : Option ParseResult :=
  Version.parse wyhash { buf := slice, slice := slice }

end

/-! ### Printing -/

/-- What `{}` prints for a number. -/
def decimal (n : Nat) : Bytes := (Nat.toDigits 10 n).map fun c => UInt8.ofNat c.toNat

def Version.fmt (v : Version) : Bytes :=
  decimal v.major ++ 0x2e :: decimal v.minor ++ 0x2e :: decimal v.patch ++
    (if v.tag.hasPre then 0x2d :: v.tag.pre.value else []) ++
    (if v.tag.hasBuild then 0x2b :: v.tag.build.value else [])

end Bunx.Semver
