/-
Module: Bunx.SourceMap.MappingParse
Purpose: Reading a mappings text into a list of mappings, as the code does it.
Trusted boundary: the list of mappings takes every mapping; the sort at the end is left out
Main exports:
  Mapping, ParseFail, Turn, readField, ParseInput.readOriginal, ParseInput.turn,
  ParseInput.loop, parse
-/
import Bunx.SourceMap.SourceMapPieces

namespace Bunx.SourceMap.Pieces

open Vlq (Bytes)

structure Mapping where
  generated : LineColumnOffset := {}
  original : LineColumnOffset := {}
  sourceIndex : Int := 0
  nameIndex : Int := -1
deriving Repr, DecidableEq

inductive ParseError where
  | missingGeneratedColumnValue
  | invalidGeneratedColumnValue
  | invalidSourceIndexDelta
  | invalidSourceIndexValue
  | missingOriginalLine
  | invalidOriginalLineValue
  | missingOriginalColumnValue
  | invalidOriginalColumnValue
  | invalidNameIndexDelta
deriving Repr, DecidableEq

structure ParseFail where
  err : ParseError
  value : Int
  /-- Where in the text. -/
  start : Nat
deriving Repr, DecidableEq

structure ParseOptions where
  allowNames : Bool := false
  sort : Bool := false
deriving Repr, DecidableEq

/-- The arguments of a run: the number of sources, the options and the length of the text. -/
structure ParseInput where
  sourcesCount : Int
  options : ParseOptions
  length : Nat
deriving Repr, DecidableEq

structure ParseState where
  generated : LineColumnOffset := {}
  original : LineColumnOffset := {}
  nameIndex : Int := 0
  sourceIndex : Int := 0
  needsSort : Bool := false
  hasNames : Bool := false
  mappings : List Mapping := []
deriving Repr, DecidableEq

/-- How a turn ends: with the text, or with what remains of it. -/
inductive Turn (σ : Type) where
  | stop (st : σ)
  | more (st : σ) (remain : Bytes)
deriving Repr, DecidableEq

def Turn.state {σ : Type} : Turn σ → σ
  | .stop st => st
  | .more st _ => st

def Turn.remain {σ : Type} : Turn σ → Bytes
  | .stop _ => []
  | .more _ remain => remain

/-- The field a text begins with and what stands behind it. Nothing where the decoder has not
moved. -/
def readField (remain : Bytes) : Option (Int × Bytes) :=
  let result := Vlq.decode remain 0
  if result.start = 0 then none else some (result.value, remain.drop result.start)

namespace ParseInput

variable (input : ParseInput)

/-- The failure at what remains of the text. -/
def fail (err : ParseError) (value : Int) (remain : Bytes) : ParseFail :=
  { err, value, start := min (input.length - remain.length) i32Max.toNat }

def field (err : ParseError) (value : Int) (remain : Bytes) : Except ParseFail (Int × Bytes) :=
  match readField remain with
  | none => .error (input.fail err value remain)
  | some read => .ok read

/-- A value that must be one of a position. -/
def check (err : ParseError) (value : Int) (valid : Bool) (remain : Bytes) :
    Except ParseFail Unit :=
  if valid then .ok () else .error (input.fail err value remain)

/-- The lines that semicolons at the start end. -/
def addLines (st : ParseState) (remain : Bytes) : ParseState :=
  if remain.head? = some semicolon then
    let lines := (remain.takeWhile (· == semicolon)).length
    { st with generated := { lines := wrap (st.generated.lines + lines), columns := 0 } }
  else st

/-- The source and the original position of a segment. -/
def readOriginal (st : ParseState) (remain : Bytes) : Except ParseFail (ParseState × Bytes) := do
  let source ← input.field .invalidSourceIndexDelta 0 remain
  let sourceIndex := wrap (st.sourceIndex + source.1)
  input.check .invalidSourceIndexValue sourceIndex
    (0 ≤ sourceIndex && sourceIndex < input.sourcesCount) remain
  let line ← input.field .missingOriginalLine 0 source.2
  let lines := wrap (st.original.lines + line.1)
  input.check .invalidOriginalLineValue lines (0 ≤ lines) source.2
  let column ← input.field .missingOriginalColumnValue 0 line.2
  let columns := wrap (st.original.columns + column.1)
  input.check .invalidOriginalColumnValue columns (0 ≤ columns) line.2
  .ok ({ st with sourceIndex, original := { lines, columns } }, column.2)

/-- The name of a segment, where one follows, and the comma behind. -/
def readName (st : ParseState) (remain : Bytes) : Except ParseFail (ParseState × Bytes) :=
  match remain with
  | [] => .ok (st, [])
  | c :: rest =>
      if c = comma then .ok (st, rest)
      else if c = semicolon then .ok (st, remain)
      else do
        let name ← input.field .invalidNameIndexDelta c.toNat remain
        let st :=
          if input.options.allowNames then
            { st with nameIndex := wrap (st.nameIndex + name.1), hasNames := true }
          else st
        .ok (st, if name.2.head? = some comma then name.2.drop 1 else name.2)

/-- The list keeps no name before the first one. -/
def append (st : ParseState) : ParseState :=
  { st with mappings := st.mappings ++
      [{ generated := st.generated
         original := st.original
         sourceIndex := st.sourceIndex
         nameIndex := if st.hasNames then st.nameIndex else -1 }] }

/-- A segment behind its generated column: without more fields it is ignored. -/
def readBehindColumn (st : ParseState) (remain : Bytes) : Except ParseFail (Turn ParseState) :=
  match remain with
  | [] => .ok (.stop st)
  | c :: rest =>
      if c = comma then .ok (.more st rest)
      else if c = semicolon then .ok (.more st remain)
      else do
        let original ← input.readOriginal st remain
        let named ← input.readName original.1 original.2
        .ok (.more (append named.1) named.2)

/-- A turn of the loop over the text. -/
def turn (st : ParseState) (remain : Bytes) : Except ParseFail (Turn ParseState) := do
  let st := addLines st remain
  let remain := remain.dropWhile (· == semicolon)
  if remain = [] then .ok (.stop st)
  else do
    let column ← input.field .missingGeneratedColumnValue st.generated.columns remain
    let columns := wrap (st.generated.columns + column.1)
    input.check .invalidGeneratedColumnValue columns (0 ≤ columns) remain
    input.readBehindColumn
      { st with
        needsSort := st.needsSort || column.1 < 0
        generated := { st.generated with columns } } column.2

/-- The loop; nothing where the turns are used up before the text is. -/
def loop : Nat → ParseState → Bytes → Option (Except ParseFail ParseState)
  | _, st, [] => some (.ok st)
  | 0, _, _ :: _ => none
  | turns + 1, st, c :: rest =>
      match input.turn st (c :: rest) with
      | .error fail => some (.error fail)
      | .ok (.stop st) => some (.ok st)
      | .ok (.more st remain) => loop turns st remain

theorem loop_turn (turns : Nat) (st : ParseState) (c : UInt8) (rest : Bytes) :
    input.loop (turns + 1) st (c :: rest) =
      match input.turn st (c :: rest) with
      | .error fail => some (.error fail)
      | .ok t => input.loop turns t.state t.remain := by
  rw [loop]
  cases input.turn st (c :: rest) with
  | error fail => rfl
  | ok t =>
      cases t with
      | stop st =>
          dsimp only [Turn.state, Turn.remain]
          rw [loop]
      | more st remain => rfl

end ParseInput

/-- `parse` without the sort. Each turn reads a byte or more. -/
def parse (bytes : Bytes) (sourcesCount : Int) (options : ParseOptions) :
    Option (Except ParseFail ParseState) :=
  ParseInput.loop { sourcesCount, options, length := bytes.length } bytes.length {} bytes

end Bunx.SourceMap.Pieces
