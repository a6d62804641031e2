/-
Module: Bunx.Semver.Range
Purpose: Comparators and the one- or two-sided ranges built from them.
Trusted boundary: none
Main exports: Op, Comparator, Range, Range.initWildcard, Range.satisfies,
  Range.satisfiesPre
-/
import Bunx.Semver.Version

namespace Bunx.Semver

inductive Op where
  | unset
  | eql
  | lt
  | lte
  | gt
  | gte
deriving Repr, Inhabited, DecidableEq

structure Comparator where
  op : Op := .unset
  version : Version := {}
deriving Repr, Inhabited, DecidableEq

/-- Build metadata takes no part in the comparison; an unset operator admits
nothing. -/
def Comparator.satisfies (c : Comparator) (version : Version) : Bool :=
  match version.orderWithoutBuild c.version with
  | .eq => c.op == .lte || c.op == .gte || c.op == .eql
  | .gt => c.op == .gt || c.op == .gte
  | .lt => c.op == .lt || c.op == .lte

structure Range where
  left : Comparator := {}
  right : Comparator := {}
deriving Repr, Inhabited, DecidableEq

namespace Range

/-- The range of a version written with a wildcard and no operator. -/
def initWildcard (version : Version) : Wildcard → Range
  | .none => { left := { op := .eql, version := version } }
  | .major => { left := { op := .gte, version := {} } }
  | .minor =>
      { left := { op := .lt, version := { major := saturatingAdd version.major 1 } }
        right := { op := .gte, version := { major := version.major } } }
  | .patch =>
      { left :=
          { op := .lt
            version :=
              { major := version.major, minor := saturatingAdd version.minor 1 } }
        right :=
          { op := .gte
            version := { major := version.major, minor := version.minor } } }

def hasLeft (r : Range) : Bool := r.left.op != .unset

def hasRight (r : Range) : Bool := r.right.op != .unset

/-- A range without a left comparator admits every version. -/
def satisfies (r : Range) (version : Version) : Bool :=
  if !r.hasLeft then true
  else if !r.left.satisfies version then false
  else if r.hasRight && !r.right.satisfies version then false
  else true

/-- `version` has the numbers of a comparator that carries a prerelease tag. -/
def preMatches (c : Comparator) (version : Version) : Bool :=
  c.version.tag.hasPre && version.patch == c.version.patch &&
    version.minor == c.version.minor && version.major == c.version.major

/-- `satisfies` for a version with a prerelease tag, threading the flag that
records a comparator with a tag on the same numbers. -/
def satisfiesPre (r : Range) (version : Version) (preMatched : Bool) :
    Bool × Bool :=
  if !r.hasLeft then (true, preMatched)
  else
    let preMatched := preMatched || preMatches r.left version ||
      (r.hasRight && preMatches r.right version)
    if !r.left.satisfies version then (false, preMatched)
    else if r.hasRight && !r.right.satisfies version then (false, preMatched)
    else (true, preMatched)

end Range

end Bunx.Semver
