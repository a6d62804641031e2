/-
Module: Bunx.Renamer.NumberRenamer
Purpose: The renamer that gives a symbol its own name, or that name and a number where the name
  is taken in its scope or in one around it.
Trusted boundary: code points and which of them can stand in identifiers are parameters
Main exports: Identifiers, ensureValidIdentifier, NumberScope, NameUse.find, findUnusedName,
  SymbolMap, assignName, Scope, assignNamesRecursive, renameAll, nameForSymbol
-/
import Mathlib.Algebra.Ring.Int.Defs
import Mathlib.Algebra.Ring.Nat
import Bunx.Lib.Decimal
import Bunx.Lib.OrderedMap
import Mathlib.Data.List.Sort

namespace Bunx.Renamer

open Bunx.Lib

abbrev Name : Type := List UInt8

/-! ### Identifiers -/

/-- A code point, where it begins and how many bytes it takes. -/
structure Cursor where
  c : Nat
  i : Nat
  width : Nat

/-- How texts are read as code points, and which of these can stand in identifiers. -/
structure Identifiers where
  codepoints : Name → List Cursor
  isIdentifierStart : Nat → Bool
  isIdentifierContinue : Nat → Bool

def text (s : String) : Name := s.toList.map fun c => UInt8.ofNat c.toNat

def strictModeReservedWords : List Name :=
  [text "implements", text "interface", text "let", text "package", text "private",
    text "protected", text "public", text "static", text "yield"]

def isStrictModeReservedWord (name : Name) : Bool := name ∈ strictModeReservedWords

def strictModeReservedWordRemap (name : Name) : Option Name :=
  if isStrictModeReservedWord name then some (text "_" ++ name) else none

def isAsciiAlphabetic (c : UInt8) : Bool :=
  (0x41 ≤ c && c ≤ 0x5A) || (0x61 ≤ c && c ≤ 0x7A)

def isAsciiDigit (c : UInt8) : Bool := 0x30 ≤ c && c ≤ 0x39

def isSimpleAsciiIdentifier (s : Name) : Bool :=
  match s with
  | [] => false
  | first :: rest =>
      (isAsciiAlphabetic first || first = 0x5F || first = 0x24) &&
        rest.all fun c => isAsciiAlphabetic c || isAsciiDigit c || c = 0x5F || c = 0x24

/-- What cannot stand in an identifier is replaced by one `_`. -/
def fillGaps (ids : Identifiers) (items : Name) : Name × Bool → Cursor → Name × Bool
  | (result, needsGap), cursor =>
      if ids.isIdentifierContinue cursor.c ∧ cursor.width = 1 then
        ((if needsGap then result ++ text "_" else result) ++
          (items.drop cursor.i).take cursor.width, false)
      else (result, true)

/-- `MutableString::ensure_valid_identifier` -/
def ensureValidIdentifier (ids : Identifiers) (str : Name) : Name :=
  if str.isEmpty then text "_"
  else
    match ids.codepoints str with
    | [] => text "_"
    | first :: rest =>
        let gap :=
          if ids.isIdentifierStart first.c then
            (rest.find? fun cursor => !ids.isIdentifierContinue cursor.c || cursor.width > 1).map
              Cursor.i
          else some 0
        match gap with
        | none => (strictModeReservedWordRemap str).getD str
        | some start =>
            let items := str.drop start
            let (result, needsGap) := (ids.codepoints items).foldl (fillGaps ids items)
              (if start = 0 then text "_" else str.take start, false)
            if needsGap then result ++ text "_" else result

/-! ### Scopes of names -/

abbrev NameCounts : Type := OrderedMap Name Nat

/-- A scope, and those around it from the inside out. -/
structure NumberScope where
  nameCounts : NameCounts
  parents : List NameCounts

inductive NameUse where
  | unused
  | sameScope (count : Nat)
  | used

def NameUse.find (s : NumberScope) (name : Name) : NameUse :=
  match s.nameCounts.get name with
  | some count => .sameScope count
  | none => if s.parents.any fun parent => (parent.get name).isSome then .used else .unused

inductive UnusedName where
  | noCollision
  | renamed (name : Name)

/-- The numbers are tried one after the other. -/
def tryNumbers (s : NumberScope) (base : Name) : Nat → Nat → Option (Name × Nat)
  | 0, _ => none
  | fuel + 1, tries =>
      let candidate := base ++ decimal tries
      let tries := (tries + 1) % 2 ^ 32
      match NameUse.find s candidate with
      | .unused => some (candidate, tries)
      | _ => tryNumbers s base fuel tries

def NumberScope.setCount (s : NumberScope) (name : Name) (count : Nat) : NumberScope :=
  { s with nameCounts := s.nameCounts.put name fun _ => count }

/-- The number that a name is tried with first. -/
def NameUse.firstTry : NameUse → Nat
  | .sameScope count => (count + 1) % 2 ^ 32
  | _ => 2

/-- A name that is taken gets a number. A name in the same scope remembers the last number. -/
def numberName (fuel : Nat) (s : NumberScope) (base : Name) (use : NameUse) :
    Option (Name × NumberScope) :=
  let tries := use.firstTry
  let candidate := base ++ decimal tries
  match NameUse.find s candidate with
  | .unused =>
      match use with
      | .sameScope _ => some (candidate, s.setCount base tries)
      | _ => some (candidate, s)
  | curUse => do
      let (candidate, tries) ← tryNumbers s base fuel tries
      match curUse with
      | .sameScope _ => return (candidate, s.setCount base tries)
      | _ => return (candidate, s)

def findUnusedName (ids : Identifiers) (fuel : Nat) (s : NumberScope) (inputName : Name) :
    Option (UnusedName × NumberScope) :=
  let normalized := !(isSimpleAsciiIdentifier inputName && !isStrictModeReservedWord inputName)
  let name := if normalized then ensureValidIdentifier ids inputName else inputName
  match NameUse.find s name with
  | .unused =>
      if !normalized || name = inputName then some (.noCollision, s.setCount inputName 1)
      else some (.renamed name, s.setCount name 1)
  | use => do
      let (name, s) ← numberName fuel s name use
      return (.renamed name, s.setCount name 1)

/-! ### Symbols -/

structure Ref where
  innerIndex : Nat
  sourceIndex : Nat
deriving DecidableEq

inductive SlotNamespace where
  | mustNotBeRenamed
  | default
  | label
  | privateName
  | mangledProp
deriving DecidableEq

structure Symbol where
  originalName : Name
  slotNamespace : SlotNamespace

/-- The symbols, and which of them stands for which. -/
structure SymbolMap where
  follow : Ref → Ref
  get : Ref → Symbol

/-- The names that have been assigned, empty where there is none. -/
abbrev Names : Type := Ref → Name

section Renamer

variable (ids : Identifiers) (symbols : SymbolMap) (fuel : Nat)

def assignName (s : NumberScope) (names : Names) (inputRef : Ref) :
    Option (NumberScope × Names) :=
  let ref := symbols.follow inputRef
  -- A symbol is not renamed more than once.
  if names ref ≠ [] then some (s, names)
  else
    let symbol := symbols.get ref
    if symbol.slotNamespace ≠ .default then some (s, names)
    else do
      let (name, s) ← findUnusedName ids fuel s symbol.originalName
      match name with
      | .renamed name => return (s, Function.update names ref name)
      | .noCollision => return (s, Function.update names ref symbol.originalName)

def assignNames (s : NumberScope) (names : Names) (refs : List Ref) :
    Option (NumberScope × Names) :=
  refs.foldlM (fun state ref => assignName ids symbols fuel state.1 state.2 ref) (s, names)

/-- A scope of the source: its members, the symbols generated for it, and the scopes in it. -/
inductive Scope where
  | mk (members : List Ref) (generated : List Ref) (children : List Scope)

/-- The symbols of a scope in the order in which they are named. -/
def scopeRefs (sourceIndex : Nat) (members generated : List Ref) : List Ref :=
  ((members.map Ref.innerIndex).insertionSort (· ≤ ·)).map
    (fun innerIndex => { innerIndex := innerIndex, sourceIndex := sourceIndex }) ++ generated

mutual

/-- A scope with symbols is one of names. The scopes in it come after its own symbols. -/
def assignNamesRecursive (sourceIndex : Nat) :
    Scope → NumberScope → Names → Option Names
  | .mk members generated children, initial, names =>
      if members.length + generated.length > 0 then do
        let (s, names) ← assignNames ids symbols fuel
          { nameCounts := [], parents := initial.nameCounts :: initial.parents } names
          (scopeRefs sourceIndex members generated)
        assignNamesInChildren sourceIndex children s names
      else assignNamesInChildren sourceIndex children initial names

def assignNamesInChildren (sourceIndex : Nat) :
    List Scope → NumberScope → Names → Option Names
  | [], _, names => some names
  | child :: children, s, names => do
      let names ← assignNamesRecursive sourceIndex child s names
      assignNamesInChildren sourceIndex children s names

end

end Renamer

end Bunx.Renamer
