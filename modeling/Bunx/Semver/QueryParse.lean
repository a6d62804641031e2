/-
Module: Bunx.Semver.QueryParse
Purpose: Range strings: tokens, the ranges they stand for, and hyphenated ranges.
Trusted boundary: built without debug assertions
Main exports: TokenTag, Token, Token.toRange, hyphenRange, Query.parse
-/
import Bunx.Semver.Parse
import Bunx.Semver.Query

namespace Bunx.Semver

inductive TokenTag where
  | none
  | gt
  | gte
  | lt
  | lte
  | version
  | tilda
  | caret
deriving Repr, Inhabited, DecidableEq

structure Token where
  tag : TokenTag := .none
  wildcard : Wildcard := .none
deriving Repr, Inhabited, DecidableEq

/-! ### Ranges of tokens -/

/-- Allows changes that do not modify the left-most non-zero number. -/
def caretRange (version : Partial) : Range :=
  match version.major with
  | none => {}
  | some major =>
      let next : Version := { major := saturatingAdd major 1 }
      match version.minor, version.patch with
      | none, _ =>
          { left := { op := .gte, version := { major } }, right := { op := .lt, version := next } }
      | some minor, none =>
          { left := { op := .gte, version := { major, minor } }
            right :=
              { op := .lt
                version := if major = 0 then { minor := saturatingAdd minor 1 } else next } }
      | some minor, some patch =>
          { left := { op := .gte, version := { major, minor, patch, tag := version.tag } }
            right :=
              { op := .lt
                version :=
                  if major = 0 then
                    if minor = 0 then { patch := saturatingAdd patch 1 }
                    else { minor := saturatingAdd minor 1 }
                  else next } }

def tildaRange (version : Partial) : Range :=
  match version.major with
  | none => {}
  | some major =>
      match version.minor with
      | none =>
          { left := { op := .gte, version := { major } }
            right := { op := .lt, version := { major := saturatingAdd major 1 } } }
      | some minor =>
          { left :=
              { op := .gte
                version :=
                  match version.patch with
                  | some patch => { major, minor, patch, tag := version.tag }
                  | none => { major, minor } }
            right := { op := .lt, version := { major, minor := saturatingAdd minor 1 } } }

/-- The operator of a comparison; none is unreachable. -/
def comparisonOp : TokenTag → Option Op
  | .gt => some .gt
  | .gte => some .gte
  | .lt => some .lt
  | .lte => some .lte
  | _ => none

/-- A comparison with a partial version goes to one end of the versions it stands for. -/
def wildcardComparator (op : Op) (start stop : Version) : Comparator :=
  { op, version := if op = .lte ∨ op = .gt then stop else start }

def Token.toRange (t : Token) (version : Partial) : Option Range :=
  match t.tag with
  | .caret => some (caretRange version)
  | .tilda => some (tildaRange version)
  | .none => none
  | .version =>
      if t.wildcard ≠ .none then some (Range.initWildcard version.min t.wildcard)
      else some { left := { op := .eql, version := version.min } }
  | tag =>
      let major := version.major.getD 0
      let minor := version.minor.getD 0
      match t.wildcard with
      | .major =>
          some
            { left := { op := .gte, version := version.min }
              right :=
                { op := .lte, version := { major := u64Max, minor := u64Max, patch := u64Max } } }
      | .minor => do
          let op ← comparisonOp tag
          return { left := wildcardComparator op { major } { major, minor := u64Max, patch := u64Max } }
      | .patch => do
          let op ← comparisonOp tag
          return { left := wildcardComparator op { major, minor } { major, minor, patch := u64Max } }
      | .none => do
          let op ← comparisonOp tag
          return { left := { op, version := version.min } }

/-- The range of `version - second`. -/
def hyphenRange (version second : Version) : Wildcard → Range
  | .major => { left := { op := .gte, version } }
  | .minor =>
      { left := { op := .gte, version }
        right :=
          { op := .lt
            version := { second with major := saturatingAdd second.major 1, minor := 0, patch := 0 } } }
  | .patch =>
      { left := { op := .gte, version }
        right :=
          { op := .lt, version := { second with minor := saturatingAdd second.minor 1, patch := 0 } } }
  | .none =>
      { left := { op := .gte, version }, right := { op := .lte, version := second } }

/-! ### The loop -/

structure QueryCursor where
  i : Nat := 0
  token : Token := {}
  list : Group := {}
  count : Nat := 0
  isOr : Bool := false
deriving Repr, DecidableEq

def skipSpaces (input : Bytes) (i : Nat) : Nat :=
  i + ((input.drop i).takeWhile (· = 0x20)).length

def isWhitespace (c : UInt8) : Bool := c ∈ [0x20, 0x09, 0x0a, 0x0d, 0x0b, 0x0c]

def skipWhitespace (input : Bytes) (i : Nat) : Nat :=
  i + ((input.drop i).takeWhile isWhitespace).length

namespace QueryCursor

/-- The match on `input[i]`, and whether the round is skipped. -/
def lex (input : Bytes) (c : QueryCursor) (ch : UInt8) : QueryCursor × Bool :=
  let setTag (tag : TokenTag) : Token := { c.token with tag := tag }
  -- `>`, `<`
  if ch = 0x3e then
    if input[c.i + 1]? = some 0x3d then
      ({ c with token := setTag .gte, i := skipSpaces input (c.i + 2) }, false)
    else ({ c with token := setTag .gt, i := skipSpaces input (c.i + 1) }, false)
  else if ch = 0x3c then
    if input[c.i + 1]? = some 0x3d then
      ({ c with token := setTag .lte, i := skipSpaces input (c.i + 2) }, false)
    else ({ c with token := setTag .lt, i := skipSpaces input (c.i + 1) }, false)
  -- `=`, `v`
  else if ch = 0x3d ∨ ch = 0x76 then
    ({ c with token := setTag .version, isOr := true, i := skipSpaces input (c.i + 1) }, false)
  -- `~`, `^`
  else if ch = 0x7e then
    let i := if input[c.i + 1]? = some 0x3e then c.i + 2 else c.i + 1
    ({ c with token := setTag .tilda, i := skipSpaces input i }, false)
  else if ch = 0x5e then
    ({ c with token := setTag .caret, i := skipSpaces input (c.i + 1) }, false)
  else if isDigit ch ∨ isWildcardByte ch then
    ({ c with token := setTag .version, isOr := true }, false)
  -- `|`
  else if ch = 0x7c then
    let i := c.i + 1 + ((input.drop (c.i + 1)).takeWhile (· = 0x7c)).length
    ({ c with token := setTag .none, isOr := true, i := skipSpaces input i }, true)
  -- `-`, space
  else if ch = 0x2d then ({ c with i := skipSpaces input (c.i + 1) }, false)
  else if ch = 0x20 then ({ c with i := skipSpaces input (c.i + 1) }, true)
  -- a tagged version such as `boop`
  else
    let i := c.i + 1 +
      ((input.drop (c.i + 1)).takeWhile fun b => b ≠ 0x20 ∧ b ≠ 0x7c).length
    ({ c with token := setTag .none, i }, true)

/-- Where the second version of a hyphenated range begins, if there is one behind `i`. -/
def hyphenate (input : Bytes) (i : Nat) : Option Nat :=
  if ¬(input[i]? = some 0x20 ∨ input[i]? = some 0x2d) then none
  else
    let i := skipWhitespace input i
    if input[i]? ≠ some 0x2d then none
    else
      let i := skipWhitespace input (i + 1)
      let i := if input[i]? = some 0x76 ∨ input[i]? = some 0x3d then i + 1 else i
      let i := skipWhitespace input i
      if input[i]?.any fun c => isDigit c || isWildcardByte c then some i else none

/-- The list with the comparator of a token; the first version without a wildcard is an exact
one. -/
def addComparator (c : QueryCursor) (token : Token) (parsed : ParseResult) : Option Group :=
  if c.count = 0 ∧ token.tag = .version then
    if parsed.wildcard = .none then some (c.list.orVersion parsed.version.min)
    else (token.toRange parsed.version).map c.list.orRange
  else if c.count = 0 then (token.toRange parsed.version).map c.list.andRange
  else if c.isOr then (token.toRange parsed.version).map c.list.orRange
  else (token.toRange parsed.version).map c.list.andRange

/-- The flags that tell of tags. -/
def flag (c : QueryCursor) (version : Version) : QueryCursor :=
  { c with
    list :=
      { c.list with
        flagPre := c.list.flagPre || version.tag.hasPre
        flagBuild := c.list.flagBuild || version.tag.hasBuild } }

end QueryCursor

section

variable (wyhash : Bytes → UInt64) (s : SlicedString)

/-- A version at `i` and what it is compared with. -/
def queryRound (c : QueryCursor) : Option QueryCursor := do
  let input := s.slice.bytes
  let parsed ← Version.parse wyhash (s.sub (s.slice.from c.i))
  let version := parsed.version.min
  let c := c.flag version
  let token : Token := { c.token with wildcard := parsed.wildcard }
  let rollback := c.i + parsed.len
  match QueryCursor.hyphenate input rollback with
  | some i => do
      let second ← Version.parse wyhash (s.sub (s.slice.from i))
      let c := c.flag second.version.min
      let range := hyphenRange version second.version.min second.wildcard
      return { c with
        i := i + second.len + 1, isOr := false, count := c.count + 1
        list := if c.isOr then c.list.orRange range else c.list.andRange range
        token := { token with wildcard := .none } }
  | none =>
      let next := { c with i := rollback + 1, token := { token with wildcard := .none } }
      if token.tag = .none then return next
      else do
        let list ← c.addComparator token parsed
        return { next with list, isOr := false, count := c.count + 1 }

/-- `fuel` bounds the rounds; none where a cast panics. -/
def queryLoop : Nat → QueryCursor → Option Group
  | fuel, c =>
      match s.slice.bytes[c.i]? with
      | none => some c.list
      | some ch =>
          match fuel with
          | 0 => none
          | fuel + 1 =>
              match c.lex s.slice.bytes ch with
              | (c, true) => queryLoop fuel c
              | (c, false) => (queryRound wyhash s c).bind (queryLoop fuel)

/-- Each round moves on, so there are no more of them than bytes. -/
def Query.parse : Option Group := queryLoop wyhash s s.slice.bytes.length {}

end

end Bunx.Semver
