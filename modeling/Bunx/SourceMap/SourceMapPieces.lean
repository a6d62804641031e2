/-
Module: Bunx.SourceMap.SourceMapPieces
Purpose: Moving the generated columns of a joined mappings text, as the code edits the text in
  place.
Trusted boundary: the string joiner concatenates what is pushed; allocations succeed
Main exports:
  Pieces.LineColumnOffset, SourceMapShifts, segmentEnd, finalizeTurn, finalizeLoop,
  finalizeMappings, SourceMapPieces, finalize
-/
import Bunx.SourceMap.Vlq

namespace Bunx.SourceMap.Pieces

open Vlq (Bytes)

def comma : UInt8 := 0x2c
def semicolon : UInt8 := 0x3b

/-- Zero-based ordinals, `i32` each. -/
structure LineColumnOffset where
  lines : Int := 0
  columns : Int := 0
deriving Repr, DecidableEq

def LineColumnOffset.comesBefore (a b : LineColumnOffset) : Bool :=
  a.lines < b.lines || (a.lines == b.lines && a.columns < b.columns)

structure SourceMapShifts where
  before : LineColumnOffset
  after : LineColumnOffset
deriving Repr, DecidableEq

/-- How far a shift moves the columns behind it. -/
def SourceMapShifts.columnDelta (shift : SourceMapShifts) : Int :=
  wrap (shift.after.columns - shift.before.columns)

structure FinalizeState where
  shifts : List SourceMapShifts
  startOfRun : Nat := 0
  current : Nat := 0
  generated : LineColumnOffset := {}
  prevShiftColumnDelta : Int := 0
  j : Bytes := []
deriving Repr, DecidableEq

/-- A fifth field, where no separator stands. -/
def skipName (mappings : Bytes) (current : Nat) : Nat :=
  match mappings[current]? with
  | none => current
  | some c => if c ≠ comma ∧ c ≠ semicolon then (Vlq.decode mappings current).start else current

def skipComma (mappings : Bytes) (current : Nat) : Nat :=
  if mappings[current]? = some comma then current + 1 else current

/-- The end of a segment whose first field has been read. -/
def segmentEnd (mappings : Bytes) (current : Nat) : Nat :=
  let current := (Vlq.decode mappings current).start
  let current := (Vlq.decode mappings current).start
  let current := (Vlq.decode mappings current).start
  skipComma mappings (skipName mappings current)

/-- The shifts from the next one on where that one comes before the position, and the next one
where it is on the same line. -/
def crossBoundary (shifts : List SourceMapShifts) (generated : LineColumnOffset) :
    List SourceMapShifts × Option SourceMapShifts :=
  match shifts with
  | _ :: shift :: later =>
      if shift.before.comesBefore generated then
        (shift :: later, if shift.after.lines = generated.lines then some shift else none)
      else (shifts, none)
  | _ => (shifts, none)

/-- A turn of the loop over the mappings. -/
def finalizeTurn (mappings : Bytes) (st : FinalizeState) : FinalizeState :=
  if mappings[st.current]? = some semicolon then
    { st with
      generated := { lines := wrap (st.generated.lines + 1), columns := 0 }
      prevShiftColumnDelta := 0
      current := st.current + 1 }
  else
    let potentialEndOfRun := st.current
    let decodeResult := Vlq.decode mappings st.current
    let generated :=
      { st.generated with columns := wrap (st.generated.columns + decodeResult.value) }
    let potentialStartOfRun := decodeResult.start
    let crossed := crossBoundary st.shifts generated
    let st :=
      { st with
        generated, shifts := crossed.1, current := segmentEnd mappings decodeResult.start }
    match crossed.2 with
    | none => st
    | some shift =>
        let vlqValue :=
          wrap (wrap (decodeResult.value + shift.columnDelta) - st.prevShiftColumnDelta)
        { st with
          j := st.j ++ (mappings.take potentialEndOfRun).drop st.startOfRun ++ Vlq.encode vlqValue
          prevShiftColumnDelta := shift.columnDelta
          startOfRun := potentialStartOfRun }

/-- The loop; nothing where the turns are used up before the text is. -/
def finalizeLoop (mappings : Bytes) : Nat → FinalizeState → Option FinalizeState
  | 0, st => if st.current < mappings.length then none else some st
  | turns + 1, st =>
      if st.current < mappings.length then finalizeLoop mappings turns (finalizeTurn mappings st)
      else some st

/-- The mappings with moved columns. A turn that does not move forward is repeated without end,
so that there are no more turns than bytes. -/
def finalizeMappings (shifts : List SourceMapShifts) (mappings : Bytes) : Option Bytes :=
  (finalizeLoop mappings mappings.length { shifts }).map fun st =>
    st.j ++ mappings.drop st.startOfRun

structure SourceMapPieces where
  front : Bytes
  mappings : Bytes
  suffix : Bytes
deriving Repr, DecidableEq

/-- `finalize`. Without mappings and suffix the part in front is all there is. -/
def SourceMapPieces.finalize (pieces : SourceMapPieces) (shifts : List SourceMapShifts) :
    Option Bytes :=
  if pieces.mappings = [] ∧ pieces.suffix = [] then some pieces.front
  else (finalizeMappings shifts pieces.mappings).map fun mappings =>
    pieces.front ++ (mappings ++ pieces.suffix)

end Bunx.SourceMap.Pieces
