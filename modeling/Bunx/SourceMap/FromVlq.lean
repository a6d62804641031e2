/-
Module: Bunx.SourceMap.FromVlq
Purpose: Reading a mappings text into an internal source map, as the code does it.
Trusted boundary: none
Main exports:
  FromVlqError, VlqReader, VlqReader.turn, VlqReader.loop, readCalls, fromVlq
-/
import Bunx.SourceMap.MappingParse
import Bunx.SourceMap.RoundTrip

namespace Bunx.SourceMap.Pieces

open Vlq (Bytes)

inductive FromVlqError where
  | invalidSourceMap
deriving Repr, DecidableEq

def checkedAdd (a b : Int) : Option Int :=
  if -(2 ^ 31) ≤ a + b ∧ a + b < 2 ^ 31 then some (a + b) else none

/-- A value that a field is added to; it must stay one of a position. -/
def accumulate (absolute delta : Int) : Except FromVlqError Int :=
  match (checkedAdd absolute delta).filter fun v => 0 ≤ v with
  | some v => .ok v
  | none => .error .invalidSourceMap

def readDelta (remain : Bytes) : Except FromVlqError (Int × Bytes) :=
  match readField remain with
  | some read => .ok read
  | none => .error .invalidSourceMap

/-- What the loop over the text carries; the calls of the builder stand for the builder. -/
structure VlqReader where
  generatedColumn : Int := 0
  sourceIndex : Int := 0
  originalLine : Int := 0
  originalColumn : Int := 0
  maxOriginalLine : Int := 0
  calls : List Call := []
deriving Repr, DecidableEq

namespace VlqReader

/-- The lines that semicolons at the start end. -/
def addLines (r : VlqReader) (remain : Bytes) : VlqReader :=
  if remain.head? = some semicolon then
    let lines := (remain.takeWhile (· == semicolon)).length
    { r with generatedColumn := 0, calls := r.calls ++ List.replicate lines .lineSeparator }
  else r

/-- The source and the original position of a segment. -/
def readOriginal (r : VlqReader) (remain : Bytes) : Except FromVlqError (VlqReader × Bytes) := do
  let source ← readDelta remain
  let sourceIndex ← accumulate r.sourceIndex source.1
  let line ← readDelta source.2
  let originalLine ← accumulate r.originalLine line.1
  let column ← readDelta line.2
  let originalColumn ← accumulate r.originalColumn column.1
  .ok ({ r with sourceIndex, originalLine, originalColumn }, column.2)

/-- A fifth field is read and dropped. -/
def dropName (remain : Bytes) : Except FromVlqError Bytes :=
  match remain with
  | [] => .ok []
  | c :: _ => if c ≠ comma ∧ c ≠ semicolon then (readDelta remain).map (·.2) else .ok remain

/-- What is behind the name of a segment and the comma. -/
def skipName (remain : Bytes) : Except FromVlqError Bytes :=
  (dropName remain).map fun remain =>
    if remain.head? = some comma then remain.drop 1 else remain

def append (r : VlqReader) : VlqReader :=
  { r with
    maxOriginalLine := max r.maxOriginalLine r.originalLine
    calls := r.calls ++
      [.mapping
        { generatedLine := 0
          generatedColumn := r.generatedColumn
          sourceIndex := r.sourceIndex
          originalLine := r.originalLine
          originalColumn := r.originalColumn }] }

/-- A segment behind its generated column: without more fields it is skipped. -/
def readBehindColumn (r : VlqReader) (remain : Bytes) :
    Except FromVlqError (Turn VlqReader) :=
  match remain with
  | [] => .ok (.more r [])
  | c :: rest =>
      if c = comma then .ok (.more r rest)
      else if c = semicolon then .ok (.more r remain)
      else do
        let original ← r.readOriginal remain
        let behind ← skipName original.2
        .ok (.more original.1.append behind)

/-- A turn of the loop over the text. -/
def turn (r : VlqReader) (remain : Bytes) : Except FromVlqError (Turn VlqReader) := do
  let r := r.addLines remain
  let remain := remain.dropWhile (· == semicolon)
  if remain = [] then .ok (.stop r)
  else do
    let column ← readDelta remain
    let generatedColumn ← accumulate r.generatedColumn column.1
    readBehindColumn { r with generatedColumn } column.2

/-- The loop; nothing where the turns are used up before the text is. -/
def loop : Nat → VlqReader → Bytes → Option (Except FromVlqError VlqReader)
  | _, r, [] => some (.ok r)
  | 0, _, _ :: _ => none
  | turns + 1, r, c :: rest =>
      match r.turn (c :: rest) with
      | .error err => some (.error err)
      | .ok (.stop r) => some (.ok r)
      | .ok (.more r remain) => loop turns r remain

theorem loop_turn (turns : Nat) (r : VlqReader) (c : UInt8) (rest : Bytes) :
    loop (turns + 1) r (c :: rest) =
      match r.turn (c :: rest) with
      | .error err => some (.error err)
      | .ok t => loop turns t.state t.remain := by
  rw [loop]
  cases r.turn (c :: rest) with
  | error err => rfl
  | ok t =>
      cases t with
      | stop r =>
          dsimp only [Turn.state, Turn.remain]
          rw [loop]
      | more r remain => rfl

end VlqReader

end Bunx.SourceMap.Pieces
