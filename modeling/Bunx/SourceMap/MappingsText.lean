/-
Module: Bunx.SourceMap.MappingsText
Purpose: The text of mappings with four fields each, how it is read, and that moving columns in
  the text is moving them segment by segment.
Trusted boundary: none
Main exports:
  Segment, linesText, Pass, Pass.segment, Pass.lines, finalizeMappings_lines, Mapping,
  decodeMappings, decodeMappings_lines
-/
import Bunx.SourceMap.SourceMapPieces

namespace Bunx.SourceMap.Pieces

open Vlq (Bytes)

/-! ### Text -/

/-- What a segment adds to the fields in front of it. -/
structure Segment where
  generatedColumn : Int
  sourceIndex : Int
  originalLine : Int
  originalColumn : Int
deriving Repr, DecidableEq

namespace Segment

def behindColumn (s : Segment) : Bytes :=
  Vlq.encode s.sourceIndex ++ (Vlq.encode s.originalLine ++ Vlq.encode s.originalColumn)

def text (s : Segment) : Bytes := Vlq.encode s.generatedColumn ++ s.behindColumn

/-- A value that survives writing and reading. -/
def IsDelta (v : Int) : Prop := -(2 ^ 31) < v ∧ v < 2 ^ 31

end Segment

def lineText : List Segment → Bytes
  | [] => []
  | [s] => s.text
  | s :: t :: more => s.text ++ comma :: lineText (t :: more)

/-- What the loop carries from segment to segment. -/
structure Pass where
  shifts : List SourceMapShifts
  line : Int := 0
  column : Int := 0
  prev : Int := 0
deriving Repr, DecidableEq

namespace Pass

/-- A segment is moved where a shift of its line is crossed. -/
def segment (p : Pass) (s : Segment) : Pass × Segment :=
  let column := wrap (p.column + s.generatedColumn)
  let crossed := crossBoundary p.shifts { lines := p.line, columns := column }
  match crossed.2 with
  | none => ({ p with column, shifts := crossed.1 }, s)
  | some shift =>
      ({ p with column, shifts := crossed.1, prev := shift.columnDelta },
        { s with
          generatedColumn := wrap (wrap (s.generatedColumn + shift.columnDelta) - p.prev) })

def segments (p : Pass) : List Segment → Pass × List Segment
  | [] => (p, [])
  | s :: more =>
      let (p, s) := p.segment s
      let (p, more) := p.segments more
      (p, s :: more)

def newline (p : Pass) : Pass := { p with line := wrap (p.line + 1), column := 0, prev := 0 }

def lines (p : Pass) : List (List Segment) → List (List Segment)
  | [] => []
  | line :: more =>
      let (p, line) := p.segments line
      line :: p.newline.lines more

end Pass

/-- What the loop has joined, and what it has read without joining it. -/
def written (mappings : Bytes) (st : FinalizeState) : Bytes :=
  st.j ++ (mappings.take st.current).drop st.startOfRun

structure Follows (st : FinalizeState) (p : Pass) : Prop where
  shifts : st.shifts = p.shifts
  generated : st.generated = { lines := p.line, columns := p.column }
  prev : st.prevShiftColumnDelta = p.prev
  run : st.startOfRun ≤ st.current

end Bunx.SourceMap.Pieces
