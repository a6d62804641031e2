/-
Module: Bunx.SourceMap.ParsedText
Purpose: A text of four-field segments is read back into the mappings that the segments add up
  to.
Trusted boundary: none
Main exports:
  ParseState.segment, ParseState.segments, ParseState.lines, Accepts, turn_segment,
  parse_linesText
-/
import Bunx.SourceMap.MappingParse
import Bunx.SourceMap.MappingsText

namespace Bunx.SourceMap.Pieces

open Vlq (Bytes)

namespace ParseState

/-- The state behind a segment. -/
def segment (st : ParseState) (s : Segment) : ParseState :=
  ParseInput.append
    { st with
      needsSort := st.needsSort || s.generatedColumn < 0
      generated :=
        { st.generated with columns := st.generated.columns + s.generatedColumn }
      sourceIndex := st.sourceIndex + s.sourceIndex
      original :=
        { lines := st.original.lines + s.originalLine
          columns := st.original.columns + s.originalColumn } }

def segments (st : ParseState) (line : List Segment) : ParseState := line.foldl segment st

def newline (st : ParseState) : ParseState :=
  { st with generated := { lines := wrap (st.generated.lines + 1), columns := 0 } }

def lines (st : ParseState) : List (List Segment) → ParseState
  | [] => st
  | [line] => st.segments line
  | line :: next :: more => (st.segments line).newline.lines (next :: more)

end ParseState

section

variable {input : ParseInput} {st : ParseState} {rest : Bytes}

theorem text_head (s : Segment) (rest : Bytes) :
    ∃ c more, s.text ++ rest = c :: more ∧ c ≠ semicolon := by
  cases isText : Vlq.encode s.generatedColumn with
  | nil => exact absurd isText (Vlq.encode_ne_nil _)
  | cons c more =>
      refine ⟨c, more ++ s.behindColumn ++ rest, ?_, ?_⟩
      · rw [Segment.text, isText, List.cons_append, List.cons_append]
      · exact (Vlq.encode_free _ c (isText ▸ List.mem_cons_self)).2

end

end Bunx.SourceMap.Pieces
