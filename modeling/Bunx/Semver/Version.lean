/-
Module: Bunx.Semver.Version
Purpose: Versions, prerelease and build tags, and the two orders on them.
Trusted boundary: none
Main exports:
  Wildcard, ExternalString, Tag, Version, Partial, parseAscii,
  Version.orderWithoutTag, Version.orderWithoutBuild
-/
import Mathlib.Algebra.Ring.Int.Defs
import Mathlib.Algebra.Ring.Nat

namespace Bunx.Semver

/-- The bytes of a source buffer. -/
abbrev Bytes := List UInt8

/-- Lexicographic byte order, `strings::order`. -/
def order (a b : Bytes) : Ordering := compareOfLessAndEq a b

/-- Which part of a version was written as `x`, `X` or `*`, or left out. -/
inductive Wildcard where
  | none
  | major
  | minor
  | patch
deriving Repr, Inhabited, DecidableEq

/-- A slice of a source buffer together with the hash the parser stored
beside it. -/
structure ExternalString where
  value : Bytes := []
  hash : UInt64 := 0
deriving Repr, Inhabited, DecidableEq

namespace ExternalString

def isEmpty (s : ExternalString) : Bool := s.value.isEmpty

/-- Equal nonzero hashes are taken for equal strings before any byte is
compared. -/
def order (lhs rhs : ExternalString) : Ordering :=
  if lhs.hash = rhs.hash ∧ lhs.hash > 0 then .eq
  else Semver.order lhs.value rhs.value

end ExternalString

/-- The `-pre` and `+build` parts of a version. -/
structure Tag where
  pre : ExternalString := {}
  build : ExternalString := {}
deriving Repr, Inhabited, DecidableEq

/-- `VersionType<u64>`; the three numbers stay below `2^64`. -/
structure Version where
  major : Nat := 0
  minor : Nat := 0
  patch : Nat := 0
  tag : Tag := {}
deriving Repr, Inhabited, DecidableEq

/-- A version whose parts may be missing. -/
structure Partial where
  major : Option Nat := none
  minor : Option Nat := none
  patch : Option Nat := none
  tag : Tag := {}
deriving Repr, Inhabited, DecidableEq

/-- `u64::MAX`. -/
def u64Max : Nat := 2 ^ 64 - 1

/-- Addition that stops at `u64::MAX`. -/
def saturatingAdd (a b : Nat) : Nat := min (a + b) u64Max

/-- Missing parts count as zero. -/
def Partial.min (p : Partial) : Version :=
  { major := p.major.getD 0, minor := p.minor.getD 0,
    patch := p.patch.getD 0, tag := p.tag }

def isDigit (c : UInt8) : Bool := 0x30 ≤ c && c ≤ 0x39

/-- The digit loop of `parse_with_sign` in radix ten: `_` is skipped and any
other non-digit is refused. -/
def parseDigits : Bytes → Nat → Option Nat
  | [], acc => some acc
  | c :: rest, acc =>
      if c = 0x5f then parseDigits rest acc
      else if isDigit c then parseDigits rest (acc * 10 + (c.toNat - 0x30))
      else none

/-- `u64::parse_ascii`: refuses the empty string, a leading or trailing `_`, a
non-digit and a value above `u64::MAX`. -/
def parseAscii (s : Bytes) : Option Nat :=
  if s = [] ∨ s.head? = some 0x5f ∨ s.getLast? = some 0x5f then none
  else
    match parseDigits s 0 with
    | some n => if n ≤ u64Max then some n else none
    | none => none

namespace Tag

def hasPre (t : Tag) : Bool := !t.pre.isEmpty

def hasBuild (t : Tag) : Bool := !t.build.isEmpty

/-- The identifier loop of `order_pre`: numeric identifiers come before
alphanumeric ones and a missing identifier before any other. -/
def orderPreParts : List Bytes → List Bytes → Ordering
  | [], [] => .eq
  | _ :: _, [] => .gt
  | [], _ :: _ => .lt
  | lhsPart :: lhs, rhsPart :: rhs =>
      match parseAscii lhsPart, parseAscii rhsPart with
      | some _, none => .lt
      | none, some _ => .gt
      | none, none =>
          match Semver.order lhsPart rhsPart with
          | .eq => orderPreParts lhs rhs
          | notEqual => notEqual
      | some l, some r =>
          match compare l r with
          | .eq => orderPreParts lhs rhs
          | notEqual => notEqual

def orderPre (lhs rhs : Tag) : Ordering :=
  orderPreParts (lhs.pre.value.splitOn 0x2e) (rhs.pre.value.splitOn 0x2e)

def order (lhs rhs : Tag) : Ordering :=
  if !lhs.pre.isEmpty && !rhs.pre.isEmpty then lhs.orderPre rhs
  else
    match lhs.pre.order rhs.pre with
    | .eq => lhs.build.order rhs.build
    | preOrder => preOrder

def orderWithoutBuild (lhs rhs : Tag) : Ordering :=
  if !lhs.pre.isEmpty && !rhs.pre.isEmpty then lhs.orderPre rhs
  else lhs.pre.order rhs.pre

end Tag

namespace Version

def isZero (v : Version) : Bool := v.patch == 0 && v.minor == 0 && v.major == 0

def orderWithoutTag (lhs rhs : Version) : Ordering :=
  if lhs.major < rhs.major then .lt
  else if lhs.major > rhs.major then .gt
  else if lhs.minor < rhs.minor then .lt
  else if lhs.minor > rhs.minor then .gt
  else if lhs.patch < rhs.patch then .lt
  else if lhs.patch > rhs.patch then .gt
  else if lhs.tag.hasPre then
    if !rhs.tag.hasPre then .lt else .eq
  else if rhs.tag.hasPre then .gt
  else .eq

def order (lhs rhs : Version) : Ordering :=
  match orderWithoutTag lhs rhs with
  | .eq => lhs.tag.order rhs.tag
  | notEqual => notEqual

def orderWithoutBuild (lhs rhs : Version) : Ordering :=
  match orderWithoutTag lhs rhs with
  | .eq => lhs.tag.orderWithoutBuild rhs.tag
  | notEqual => notEqual

end Version

end Bunx.Semver
