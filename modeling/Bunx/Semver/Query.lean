/-
Module: Bunx.Semver.Query
Purpose: The linked lists of a parsed range: alternatives of conjunctions.
Trusted boundary: none
Main exports: AndList, Group, Group.orVersion, Group.andRange, Group.orRange,
  Group.satisfies
-/
import Bunx.Semver.Range

namespace Bunx.Semver

/-!
`Query` is a chain of ranges joined by AND, `List` a chain of such chains
joined by OR.  A chain is kept as its head and the nodes behind it.  The tail
pointer is the position of a node behind the head; `none` stands for the null
pointer, for which the source falls back to the head itself.
-/

/-- Replace whatever hangs behind the tail pointer by one new node. -/
def linkAfter {α : Type} (next : List α) (tail : Option Nat) (node : α) : List α :=
  match tail with
  | none => [node]
  | some p => next.take (p + 1) ++ [node]

/-- The position `linkAfter` puts the new node at. -/
def linkedAt (tail : Option Nat) : Nat :=
  match tail with
  | none => 0
  | some p => p + 1

/-- One alternative: `query::List` with its `head` query unrolled. -/
structure AndList where
  head : Range := {}
  next : List Range := []
  tail : Option Nat := none
deriving Repr, Inhabited, DecidableEq

namespace AndList

/-- `Query::satisfies` along the chain. -/
def satisfies (l : AndList) (version : Version) : Bool :=
  (l.head :: l.next).all (·.satisfies version)

/-- `Query::satisfies_pre` along the chain, stopping at the first range that
refuses the version. -/
def satisfiesPreChain (version : Version) : List Range → Bool → Bool × Bool
  | [], preMatched => (true, preMatched)
  | r :: rest, preMatched =>
      match r.satisfiesPre version preMatched with
      | (false, preMatched) => (false, preMatched)
      | (true, preMatched) => satisfiesPreChain version rest preMatched

def satisfiesPre (l : AndList) (version : Version) : Bool :=
  let (ok, preMatched) := satisfiesPreChain version (l.head :: l.next) false
  ok && preMatched

/-- An empty head is overwritten; otherwise the range is linked behind the
tail. -/
def andRange (l : AndList) (range : Range) : AndList :=
  if !l.head.hasLeft && !l.head.hasRight then { l with head := range }
  else
    { l with next := linkAfter l.next l.tail range, tail := some (linkedAt l.tail) }

end AndList

/-- A parsed range string. -/
structure Group where
  head : AndList := {}
  next : List AndList := []
  tail : Option Nat := none
  flagPre : Bool := false
  flagBuild : Bool := false
deriving Repr, Inhabited, DecidableEq

namespace Group

/-- The alternative the tail pointer designates, updated in place. -/
def updateTail (g : Group) (f : AndList → AndList) : Group :=
  match g.tail with
  | none => { g with head := f g.head }
  | some p => { g with next := g.next.modify p f }

/-- Link a new alternative behind the tail. -/
def pushAlternative (g : Group) (l : AndList) : Group :=
  { g with next := linkAfter g.next g.tail l, tail := some (linkedAt g.tail) }

def orVersion (g : Group) (version : Version) : Group :=
  if g.tail.isNone && !g.head.head.hasLeft then
    { g with head :=
        { g.head with head :=
            { g.head.head with left := { op := .eql, version := version } } } }
  else g.pushAlternative { head := { left := { op := .eql, version := version } } }

def andRange (g : Group) (range : Range) : Group :=
  g.updateTail (·.andRange range)

def orRange (g : Group) (range : Range) : Group :=
  if g.tail.isNone && g.head.tail.isNone && !g.head.head.hasLeft then
    { g with head := { g.head with head := range } }
  else g.pushAlternative { head := range }

/-- `List::satisfies` or `List::satisfies_pre` over the alternatives. -/
def satisfies (g : Group) (version : Version) : Bool :=
  if version.tag.hasPre then (g.head :: g.next).any (·.satisfiesPre version)
  else (g.head :: g.next).any (·.satisfies version)

end Group

end Bunx.Semver
