/-
Module: Bunx.Router.Pattern
Purpose: The patterns of file-system routes, segment by segment, and the matching of a path.
Trusted boundary: names of less than 2^16 - 1 bytes, so that no offset overflows; what the hash of a
  string is
Main exports: HashedString, TinyPtr, Value, Pattern, Pattern.initMaybeHash, Pattern.validate,
  Pattern.matchLoop, Pattern.match_, matchDynamic
-/
import Mathlib.Data.List.Basic

namespace Bunx.Router

abbrev Text : Type := List UInt8

def slash : UInt8 := 0x2F
def openBracket : UInt8 := 0x5B
def closeBracket : UInt8 := 0x5D
def dot : UInt8 := 0x2E

/-! ### Values of patterns -/

structure HashedString where
  str : Text
  hash : Nat
deriving DecidableEq

namespace HashedString

def empty : HashedString := { str := [], hash := 0 }

def init (hash : Text → Nat) (buf : Text) : HashedString := { str := buf, hash := hash buf }

def initNoHash (buf : Text) : HashedString := { str := buf, hash := 0 }

def eqlBytes (hash : Text → Nat) (this : HashedString) (other : Text) : Bool :=
  this.str.length = other.length && hash other = this.hash && this.str = other

end HashedString

structure TinyPtr where
  offset : Nat
  len : Nat
deriving DecidableEq

def TinyPtr.str (this : TinyPtr) (slice : Text) : Text :=
  if this.len > 0 then (slice.drop this.offset).take this.len else []

inductive Tag where
  | static
  | dynamic
  | catchAll
  | optionalCatchAll
deriving DecidableEq

def Tag.toNat : Tag → Nat
  | .static => 0
  | .dynamic => 1
  | .catchAll => 2
  | .optionalCatchAll => 3

inductive Value where
  | static (str : HashedString)
  | dynamic (param : TinyPtr)
  | catchAll (param : TinyPtr)
  | optionalCatchAll (param : TinyPtr)
deriving DecidableEq

def Value.tag : Value → Tag
  | .static _ => .static
  | .dynamic _ => .dynamic
  | .catchAll _ => .catchAll
  | .optionalCatchAll _ => .optionalCatchAll

inductive PatternParseError where
  | catchAllMustBeAtTheEnd
  | invalidCatchAllRoute
  | invalidOptionalCatchAllRoute
  | invalidRoutePattern
  | missingParamName
  | patternMissingClosingBracket
deriving DecidableEq

/-- What is logged for an error. -/
def PatternParseError.message : PatternParseError → String
  | .catchAllMustBeAtTheEnd => "Catch-all route must be at the end of the path"
  | .invalidCatchAllRoute => "Invalid catch-all route, e.g. should be [...param]"
  | .invalidOptionalCatchAllRoute =>
      "Invalid optional catch-all route, e.g. should be [[...param]]"
  | .invalidRoutePattern => "Invalid dynamic route"
  | .missingParamName => "Route is missing a parameter name, e.g. [param]"
  | .patternMissingClosingBracket => "Route is missing a closing bracket]"

structure Pattern where
  value : Value
  len : Nat
deriving DecidableEq

namespace Pattern

def isEnd (this : Pattern) (input : Text) : Bool := this.len ≥ input.length - 1

/-! ### Reading a segment -/

/-- What the bytes behind an opening bracket announce, and where its parameter begins. -/
def kind (input : Text) (i : Nat) : Except PatternParseError (Tag × Nat) :=
  let last := input.length - 1
  if i ≥ last then .error .invalidRoutePattern
  else
    match input[i]? with
    | some c =>
        if c = slash ∨ c = closeBracket then .error .missingParamName
        else if c = openBracket then
          if last < i + 4 then .error .invalidOptionalCatchAllRoute
          else if [dot, dot, dot].isPrefixOf (input.drop (i + 1)) then
            .ok (.optionalCatchAll, i + 4)
          else .error .invalidOptionalCatchAllRoute
        else if c = dot then
          if last < i + 1 + 2 then .error .invalidCatchAllRoute
          else if [dot, dot].isPrefixOf (input.drop (i + 1)) then .ok (.catchAll, i + 3)
          else .error .invalidCatchAllRoute
        else .ok (.dynamic, i)
    | none => .error .invalidRoutePattern

/-- The parameter that begins at `start`. Its first byte is not looked at. -/
def parameter (input : Text) (tag : Tag) (start : Nat) : Except PatternParseError Pattern :=
  let last := input.length - 1
  let inside := (input.drop (start + 1)).takeWhile (· ≠ closeBracket)
  let i := start + 1 + inside.length
  if slash ∈ inside then .error .invalidRoutePattern
  else if i > last then .error .patternMissingClosingBracket
  else
    let param : TinyPtr := { offset := start, len := i - start }
    let i := i + 1
    if tag = .optionalCatchAll ∧ (i > last ∨ input[i]? ≠ some closeBracket) then
      .error .patternMissingClosingBracket
    else
      let i := if tag = .optionalCatchAll then i + 1 else i
      if tag.toNat > Tag.dynamic.toNat ∧ i ≤ last then .error .catchAllMustBeAtTheEnd
      else
        .ok
          { len := min (i + 1) last
            value :=
              match tag with
              | .catchAll => .catchAll param
              | .optionalCatchAll => .optionalCatchAll param
              | _ => .dynamic param }

/-- The segment at an offset, or the part of it in front of a bracket. -/
def initMaybeHash (hash : Text → Nat) (doHash : Bool) (input : Text) (offset_ : Nat) :
    Except PatternParseError Pattern :=
  let initHashedString := if doHash then HashedString.init hash else HashedString.initNoHash
  let offset := offset_ + ((input.drop offset_).takeWhile (· = slash)).length
  if input = [] ∨ input.length ≤ offset then
    .ok { value := .static .empty, len := min input.length offset }
  else
    let last := input.length - 1
    if offset = last then .ok { value := .static .empty, len := offset }
    else
      -- the loop stops at the first `/` or `[`
      let text := (input.drop offset).takeWhile fun c => c ≠ slash && c ≠ openBracket
      let i := offset + text.length
      match input[i]? with
      | some c =>
          if c = slash then
            .ok { value := .static (initHashedString text), len := min (i + 1) last }
          else if i > offset then .ok { value := .static (initHashedString text), len := i }
          else do
            let (tag, start) ← kind input (i + 1)
            parameter input tag start
      | none => .ok { value := .static (HashedString.init hash text), len := i }

def init (hash : Text → Nat) (input : Text) (offset : Nat) : Except PatternParseError Pattern :=
  initMaybeHash hash true input offset

def initUnhashed (hash : Text → Nat) (input : Text) (offset : Nat) :
    Except PatternParseError Pattern :=
  initMaybeHash hash false input offset

/-! ### Checking a name -/

structure ValidationResult where
  paramCount : Nat
  kind : Tag
deriving DecidableEq

def validateLoop (hash : Text → Nat) (input : Text) : Nat → Nat → ValidationResult →
    Except String ValidationResult
  | 0, _, result => .ok result
  | fuel + 1, offset, result =>
      if offset < input.length - 1 then
        match initUnhashed hash input offset with
        | .error err => .error err.message
        | .ok pattern =>
            let tag := pattern.value.tag
            validateLoop hash input fuel pattern.len
              { kind := if tag.toNat > result.kind.toNat then tag else result.kind
                paramCount := result.paramCount + (if tag.toNat > Tag.static.toNat then 1 else 0) }
      else .ok result

/-- The lead byte of a sequence of several bytes. -/
def isLead (c : UInt8) : Bool := 0xC0 ≤ c && c ≤ 0xF7

/-- The number of the parameters of a name, or the message that is logged. -/
def validate (hash : Text → Nat) (input : Text) : Except String ValidationResult :=
  if input.any isLead then .error "Route name must be plaintext"
  else validateLoop hash input input.length 0 { paramCount := 0, kind := .static }

end Pattern

/-! ### Matching a path -/

structure Param where
  name : Text
  value : Text
deriving DecidableEq

/-- The first segment of a path. -/
def firstSegment (path : Text) : Text := path.takeWhile (· ≠ slash)

namespace Pattern

/-- The result and the parameters, or none where the name does not parse. Each turn takes a byte of
the name. -/
def matchLoop (hash : Text → Nat) (allowOptionalCatchAll : Bool) (name matchName : Text) :
    Nat → Nat → Text → List Param → Option (Bool × List Param)
  | 0, _, _, _ => none
  | fuel + 1, offset, path, params =>
      if offset < name.length then
        match init hash matchName offset with
        | .error _ => none
        | .ok pattern =>
            match pattern.value with
            | .static str =>
                let segment := firstSegment path
                if !str.eqlBytes hash segment then some (false, [])
                else
                  let path := path.drop (segment.length + 1)
                  if path.isEmpty && pattern.isEnd name then some (true, params)
                  else matchLoop hash allowOptionalCatchAll name matchName fuel pattern.len path
                    params
            | .dynamic dynamic =>
                if slash ∈ path then
                  let value := firstSegment path
                  if pattern.isEnd name then some (false, [])
                  else
                    matchLoop hash allowOptionalCatchAll name matchName fuel pattern.len
                      (path.drop (value.length + 1))
                      (params ++ [{ name := dynamic.str name, value }])
                else if pattern.isEnd name then
                  some (true, params ++ [{ name := dynamic.str name, value := path }])
                else if allowOptionalCatchAll then
                  match init hash matchName pattern.len with
                  | .error _ => none
                  | .ok next =>
                      match next.value with
                      | .optionalCatchAll _ =>
                          some (true, params ++ [{ name := dynamic.str name, value := path }])
                      | _ => some (true, params)
                else some (true, params)
            | .catchAll dynamic =>
                if path ≠ [] then
                  some (true, params ++ [{ name := dynamic.str name, value := path }])
                else some (false, params)
            | .optionalCatchAll dynamic =>
                if allowOptionalCatchAll then
                  if path ≠ [] then
                    some (true, params ++ [{ name := dynamic.str name, value := path }])
                  else some (true, params)
                else some (false, params)
      else some (false, params)

def match_ (hash : Text → Nat) (allowOptionalCatchAll : Bool) (path name matchName : Text)
    (params : List Param) : Option (Bool × List Param) :=
  matchLoop hash allowOptionalCatchAll name matchName (name.length + 1) 0 path params

end Pattern

/-- The number of the first of some dynamic routes that matches, and the parameters behind it. The
routes are their names and the names to be matched, both without a leading slash. -/
def matchDynamic (hash : Text → Nat) (path : Text) :
    List (Text × Text) → List Param → Option (Option Nat × List Param)
  | [], params => some (none, params)
  | (name, matchName) :: routes, params => do
      let (found, params) ← Pattern.match_ hash true path name matchName params
      if found then some (some 0, params)
      else
        let (index, params) ← matchDynamic hash path routes params
        some (index.map (· + 1), params)

end Bunx.Router
