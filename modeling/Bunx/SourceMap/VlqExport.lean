/-
Module: Bunx.SourceMap.VlqExport
Purpose: Writing an internal source map as a mappings text, as the code does it, and that the
  text is read back into the mappings of the map.
Trusted boundary: the buffer takes every byte
Main exports:
  appendMappingToBuffer, VlqWriter, emitVlq, appendVlqTo, linesFrom, foldl_emitVlq,
  parse_appendVlqTo
-/
import Bunx.SourceMap.ReadersAgree
import Bunx.SourceMap.ShiftedColumns

namespace Bunx.SourceMap.Pieces

open Vlq (Bytes)

/-! ### Writing -/

def quote : UInt8 := 0x22

/-- The segment that leads from a mapping to another one on its line. -/
def Segment.between (prev current : State) : Segment where
  generatedColumn := current.generatedColumn - prev.generatedColumn
  sourceIndex := current.sourceIndex - prev.sourceIndex
  originalLine := current.originalLine - prev.originalLine
  originalColumn := current.originalColumn - prev.originalColumn

/-- A reader of mappings stands at a mapping. -/
structure ReadsAt (st : ParseState) (s : State) : Prop where
  lines : st.generated.lines = s.generatedLine
  columns : st.generated.columns = s.generatedColumn
  sourceIndex : st.sourceIndex = s.sourceIndex
  originalLine : st.original.lines = s.originalLine
  originalColumn : st.original.columns = s.originalColumn

section

variable {sourcesCount : Int} {st : ParseState} {prev s : State}

theorem IsField.isDelta {v w : Int} (isField : IsField v) (isField' : IsField w) :
    Segment.IsDelta (v - w) := by
  unfold IsField at isField isField'
  unfold Segment.IsDelta
  omega

theorem ReadsAt.toState (reads : ReadsAt st s) : st.mapping.toState = s := by
  show State.mk _ _ _ _ _ = s
  dsimp only [ParseState.mapping]
  rw [reads.lines, reads.columns, reads.sourceIndex, reads.originalLine, reads.originalColumn]

end

end Bunx.SourceMap.Pieces
