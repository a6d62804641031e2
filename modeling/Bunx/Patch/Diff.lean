/-
Module: Bunx.Patch.Diff
Purpose: Texts as lines, unified diffs between them in the form git writes, and their text.
Trusted boundary: none
Main exports: Line, linesOf, DiffHunk, IsDiff, diffText
-/
import Mathlib.Data.List.Basic
import Bunx.Lib.Decimal
import Bunx.Lib.Segments
import Bunx.Patch.PatchFile

namespace Bunx.Patch

open Lib

/-! ### Lines -/

/-- A line of a file, and whether a line feed ends it. -/
structure Line where
  text : Bytes
  ended : Bool
deriving Repr, DecidableEq

/-- The lines of a text. -/
def linesOf : Bytes → List Line
  | [] => []
  | c :: rest =>
      if c = newline then { text := [], ended := true } :: linesOf rest
      else
        match linesOf rest with
        | [] => [{ text := [c], ended := false }]
        | line :: lines => { line with text := c :: line.text } :: lines

/-- What is behind the last line feed, where the text ends in one. -/
def lastPiece (lines : List Line) : List Bytes :=
  if lines.all Line.ended then [[]] else []

/-- The pieces between line feeds. -/
def pieces (lines : List Line) : List Bytes := lines.map Line.text ++ lastPiece lines

theorem splitOn_linesOf (text : Bytes) : text.splitOn newline = pieces (linesOf text) := by
  induction text with
  | nil => rfl
  | cons c rest ih =>
      unfold linesOf
      unfold List.splitOn at ih ⊢
      rw [List.splitOnP_cons_eq_if_modifyHead, ih]
      by_cases isNewline : c = newline
      · subst isNewline
        rw [if_pos rfl, if_pos (beq_self_eq_true newline)]
        rfl
      · rw [if_neg isNewline, if_neg (mt beq_iff_eq.mp isNewline)]
        cases linesOf rest with
        | nil => rfl
        | cons line lines => rfl

/-- Only the last line may lack its line feed. -/
def IsFile (lines : List Line) : Prop := lines.Pairwise fun line _ => line.ended = true

theorem isFile_linesOf (text : Bytes) : IsFile (linesOf text) := by
  induction text with
  | nil => exact List.Pairwise.nil
  | cons c rest ih =>
      unfold linesOf
      split
      · exact List.Pairwise.cons (fun _ _ => rfl) ih
      · cases isRest : linesOf rest with
        | nil => exact List.pairwise_singleton _ _
        | cons line lines =>
            unfold IsFile at ih
            rw [isRest, List.pairwise_cons] at ih
            exact List.Pairwise.cons ih.1 ih.2

theorem noNewline_linesOf (text : Bytes) : ∀ line ∈ linesOf text, newline ∉ line.text := by
  induction text with
  | nil =>
      intro line member
      cases member
  | cons c rest ih =>
      unfold linesOf
      split
      · intro line member
        rcases List.mem_cons.mp member with rfl | later
        · exact List.not_mem_nil
        · exact ih line later
      · rename_i notNewline
        intro line member
        cases isRest : linesOf rest with
        | nil =>
            rw [isRest] at member
            obtain rfl := List.mem_singleton.mp member
            simpa using Ne.symm notNewline
        | cons first lines =>
            rw [isRest] at member ih
            rcases List.mem_cons.mp member with rfl | later
            · have inFirst := ih first List.mem_cons_self
              simpa [inFirst] using Ne.symm notNewline
            · exact ih line (List.mem_cons_of_mem first later)

/-! ### Hunks -/

/-- Lines of one kind, one after the other. -/
structure Run where
  ty : PartType
  lines : List Line
deriving Repr, DecidableEq

/-- A hunk with the numbers of its header and what stands behind them. -/
structure DiffHunk where
  oldStart : Nat
  oldLen : Nat
  newStart : Nat
  newLen : Nat
  heading : Bytes
  body : List Run
deriving Repr, DecidableEq

def oldSide (body : List Run) : List Line :=
  body.flatMap fun run => if run.ty = .insertion then [] else run.lines

def newSide (body : List Run) : List Line :=
  body.flatMap fun run => if run.ty = .deletion then [] else run.lines

/-- Runs are not empty, end where the kind of line changes, and no deletion comes directly
behind an insertion. -/
structure IsBody (body : List Run) : Prop where
  nonempty : ∀ run ∈ body, run.lines ≠ []
  ordered : body.IsChain fun run next =>
    run.ty ≠ next.ty ∧ ¬(run.ty = .insertion ∧ next.ty = .deletion)

/-- The number of the first line of a range, or of the line before an empty one. -/
def startOf (before len : Nat) : Nat := if len = 0 then before else before + 1

/-- The hunks turn the old lines into the new ones, behind so many lines of either. -/
def Covers : Nat → Nat → List Line → List Line → List DiffHunk → Prop
  | _, _, old, new, [] => old = new
  | oldBefore, newBefore, old, new, hunk :: hunks =>
      ∃ gap oldRest newRest,
        old = gap ++ oldSide hunk.body ++ oldRest ∧
        new = gap ++ newSide hunk.body ++ newRest ∧
        hunk.oldLen = (oldSide hunk.body).length ∧
        hunk.newLen = (newSide hunk.body).length ∧
        hunk.oldStart = startOf (oldBefore + gap.length) hunk.oldLen ∧
        hunk.newStart = startOf (newBefore + gap.length) hunk.newLen ∧
        IsBody hunk.body ∧ newline ∉ hunk.heading ∧
        -- nothing is left on the new side of a hunk only where the new file is empty
        (hunk.newLen = 0 → newBefore = 0 ∧ new = []) ∧
        Covers (oldBefore + gap.length + hunk.oldLen) (newBefore + gap.length + hunk.newLen)
          oldRest newRest hunks

/-- The hunks of a unified diff between two texts. -/
def IsDiff (old new : Bytes) (hunks : List DiffHunk) : Prop :=
  Covers 0 0 (linesOf old) (linesOf new) hunks

/-! ### The text of a diff -/

def mark : PartType → UInt8
  | .context => 0x20
  | .insertion => 0x2b
  | .deletion => 0x2d

/-- The lines of the diff for one line of a file. -/
def lineText (ty : PartType) (line : Line) : List Bytes :=
  if line.ended then [mark ty :: line.text]
  else [mark ty :: line.text, ascii "\\ No newline at end of file"]

def runText (run : Run) : List Bytes := run.lines.flatMap (lineText run.ty)

/-- A length of one is left out. -/
def rangeText (start len : Nat) : Bytes :=
  decimal start ++ if len = 1 then [] else 0x2c :: decimal len

def headerText (hunk : DiffHunk) : Bytes :=
  ascii "@@ -" ++ rangeText hunk.oldStart hunk.oldLen ++ ascii " +" ++
    rangeText hunk.newStart hunk.newLen ++ ascii " @@" ++ hunk.heading

def hunkText (hunk : DiffHunk) : List Bytes := headerText hunk :: hunk.body.flatMap runText

/-- The lines before the hunks; `index` is what follows the two hashes' key. -/
def fileHeader (path index : Bytes) : List Bytes :=
  [ascii "diff --git a/" ++ path ++ ascii " b/" ++ path, ascii "index " ++ index,
    ascii "--- a/" ++ path, ascii "+++ b/" ++ path]

/-- The lines of a diff; there is none between equal texts. -/
def diffLines (path index : Bytes) (hunks : List DiffHunk) : List Bytes :=
  if hunks = [] then [] else fileHeader path index ++ hunks.flatMap hunkText

/-- The diff, each line ended by a line feed. -/
def diffText (path index : Bytes) (hunks : List DiffHunk) : Bytes :=
  ended newline (diffLines path index hunks)

end Bunx.Patch
