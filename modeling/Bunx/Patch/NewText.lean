/-
Module: Bunx.Patch.NewText
Purpose: Reading a diff between two texts and applying it to the old one gives the new one.
Trusted boundary: none
Main exports: Covers.sound, diff_gives_new
-/
import Mathlib.Data.List.Basic
import Bunx.Patch.ReadDiff

namespace Bunx.Patch

open Lib

/-! ### What holds of the hunks of a diff -/

/-- A hunk of a diff, with bounds for its numbers and the texts its lines are from. -/
structure Sound (oldBound newBound : Nat) (old new : List Line) (hunk : DiffHunk) : Prop where
  isBody : IsBody hunk.body
  oldLen : hunk.oldLen = (oldSide hunk.body).length
  newLen : hunk.newLen = (newSide hunk.body).length
  heading : newline ∉ hunk.heading
  oldStart : hunk.oldStart ≤ oldBound
  newStart : hunk.newStart ≤ newBound
  oldFits : hunk.oldLen ≤ oldBound
  newFits : hunk.newLen ≤ newBound
  given : ∀ run ∈ hunk.body, ∀ line ∈ run.lines, line ∈ old ∨ line ∈ new

theorem startOf_le (before len : Nat) : startOf before len ≤ before + len := by
  unfold startOf
  split
  · omega
  · omega

/-- A line of a run is on one of the sides. -/
theorem mem_side {body : List Run} {run : Run} {line : Line} (isRun : run ∈ body)
    (isLine : line ∈ run.lines) : line ∈ oldSide body ∨ line ∈ newSide body := by
  by_cases isInsertion : run.ty = .insertion
  · right
    refine List.mem_flatMap.mpr ⟨run, isRun, ?_⟩
    rw [if_neg (by rw [isInsertion]; decide)]
    exact isLine
  · left
    refine List.mem_flatMap.mpr ⟨run, isRun, ?_⟩
    rw [if_neg isInsertion]
    exact isLine

theorem Covers.sound {oldBefore newBefore : Nat} {old new : List Line} {hunks : List DiffHunk}
    (covers : Covers oldBefore newBefore old new hunks) :
    ∀ hunk ∈ hunks, Sound (oldBefore + old.length) (newBefore + new.length) old new hunk := by
  induction hunks generalizing oldBefore newBefore old new with
  | nil =>
      intro hunk member
      cases member
  | cons first hunks ih =>
      obtain ⟨gap, oldRest, newRest, rfl, rfl, oldLen, newLen, oldStart, newStart, isBody, heading,
        _, later⟩ := covers
      have oldLow := startOf_le (oldBefore + gap.length) first.oldLen
      have newLow := startOf_le (newBefore + gap.length) first.newLen
      intro hunk member
      rcases List.mem_cons.mp member with rfl | isLater
      · refine ⟨isBody, oldLen, newLen, heading, ?_, ?_, ?_, ?_, fun run isRun line isLine => ?_⟩
        · rw [oldStart, List.length_append, List.length_append]
          omega
        · rw [newStart, List.length_append, List.length_append]
          omega
        · rw [List.length_append, List.length_append]
          omega
        · rw [List.length_append, List.length_append]
          omega
        · simp only [List.mem_append]
          rcases mem_side isRun isLine with inOld | inNew
          · exact .inl (.inl (.inr inOld))
          · exact .inr (.inl (.inr inNew))
      · have sound := ih later hunk isLater
        have oldBound : oldBefore + gap.length + first.oldLen + oldRest.length =
            oldBefore + (gap ++ oldSide first.body ++ oldRest).length := by
          rw [List.length_append, List.length_append]
          omega
        have newBound : newBefore + gap.length + first.newLen + newRest.length =
            newBefore + (gap ++ newSide first.body ++ newRest).length := by
          rw [List.length_append, List.length_append]
          omega
        rw [oldBound, newBound] at sound
        exact
          { sound with
            given := fun run isRun line isLine =>
              (sound.given run isRun line isLine).imp (List.mem_append_right _)
                (List.mem_append_right _) }

/-! ### The lines of the diff -/

theorem noNewline_ascii {s : String} {rest : Bytes} (key : newline ∉ ascii s)
    (noNewline : newline ∉ rest) : newline ∉ ascii s ++ rest := by
  rw [List.mem_append]
  exact not_or.mpr ⟨key, noNewline⟩

theorem noNewline_decimal (n : Nat) : newline ∉ decimal n := fun member =>
  decimal_ne member (by decide) rfl

theorem noNewline_rangeText (start len : Nat) : newline ∉ rangeText start len := by
  unfold rangeText
  rw [List.mem_append]
  refine not_or.mpr ⟨noNewline_decimal start, ?_⟩
  split
  · exact List.not_mem_nil
  · rw [List.mem_cons]
    exact not_or.mpr ⟨by decide, noNewline_decimal len⟩

theorem noNewline_headerText {hunk : DiffHunk} (heading : newline ∉ hunk.heading) :
    newline ∉ headerText hunk := by
  have oldRange := noNewline_rangeText hunk.oldStart hunk.oldLen
  have newRange := noNewline_rangeText hunk.newStart hunk.newLen
  have first : newline ∉ ascii "@@ -" := by decide
  have second : newline ∉ ascii " +" := by decide
  have third : newline ∉ ascii " @@" := by decide
  unfold headerText
  simp only [List.mem_append, not_or]
  exact ⟨⟨⟨⟨⟨first, oldRange⟩, second⟩, newRange⟩, third⟩, heading⟩

theorem noNewline_lineText {ty : PartType} {line : Line} (noNewline : newline ∉ line.text) :
    ∀ text ∈ lineText ty line, newline ∉ text := by
  have marked : newline ∉ mark ty :: line.text := by
    rw [List.mem_cons]
    refine not_or.mpr ⟨?_, noNewline⟩
    cases ty <;> decide
  have pragma : newline ∉ ascii "\\ No newline at end of file" := by decide
  intro text member
  unfold lineText at member
  split at member
  · rw [List.mem_singleton.mp member]
    exact marked
  · rcases List.mem_cons.mp member with rfl | last
    · exact marked
    · rw [List.mem_singleton.mp last]
      exact pragma

section

variable {old new path index : Bytes} {hunks : List DiffHunk}

theorem noNewline_hunkText {oldBound newBound : Nat} {hunk : DiffHunk}
    (sound : Sound oldBound newBound (linesOf old) (linesOf new) hunk) :
    ∀ text ∈ hunkText hunk, newline ∉ text := by
  intro text member
  rcases List.mem_cons.mp member with rfl | inBody
  · exact noNewline_headerText sound.heading
  · obtain ⟨run, isRun, inRun⟩ := List.mem_flatMap.mp inBody
    obtain ⟨line, isLine, inLine⟩ := List.mem_flatMap.mp inRun
    apply noNewline_lineText _ text inLine
    rcases sound.given run isRun line isLine with inOld | inNew
    · exact noNewline_linesOf old line inOld
    · exact noNewline_linesOf new line inNew

theorem noNewline_fileHeader (isPath : IsPath path) (noNewline : newline ∉ index) :
    ∀ text ∈ fileHeader path index, newline ∉ text := by
  have fromKey : newline ∉ ascii "--- a/" := by decide
  have toKey : newline ∉ ascii "+++ b/" := by decide
  have indexKey : newline ∉ ascii "index " := by decide
  have diffKey : newline ∉ ascii "diff --git a/" := by decide
  have middle : newline ∉ ascii " b/" := by decide
  intro text member
  unfold fileHeader at member
  simp only [List.mem_cons, List.not_mem_nil, or_false] at member
  rcases member with rfl | rfl | rfl | rfl
  · rw [List.append_assoc, List.append_assoc]
    apply noNewline_ascii diffKey
    rw [List.mem_append]
    exact not_or.mpr ⟨isPath.noNewline, noNewline_ascii middle isPath.noNewline⟩
  · exact noNewline_ascii indexKey noNewline
  · exact noNewline_ascii fromKey isPath.noNewline
  · exact noNewline_ascii toKey isPath.noNewline

/-! ### The new text -/

/-- For a diff between two texts in the form of git, the parser accepts it and applying what
it reads to the old text gives the new one: where the old text is not above the limit for
reading, the lines are counted in 32 bits and the lines of the diff are indexed in 32. -/
theorem diff_gives_new (path index : Bytes) (isPath : IsPath path) (noNewline : newline ∉ index)
    (isDiff : IsDiff old new hunks) (fits : old.length ≤ maxFile)
    (oldFew : (linesOf old).length < 4294967296) (newFew : (linesOf new).length < 4294967296)
    (short : ∀ line ∈ diffLines path index hunks, line.length < 4294967296) :
    ∃ parts, parsePatchFile (diffText path index hunks) = .ok parts ∧
      applyFile path old parts = .ok new ∧
      ∀ part ∈ parts, ∃ read before after, part = .filePatch path read before after := by
  have sound := isDiff.sound
  have applied := applyPatch_diff isDiff fits
  cases hunks with
  | nil =>
      refine ⟨[], rfl, ?_, fun part member => by cases member⟩
      have same : linesOf old = linesOf new := isDiff
      have pieces : old.splitOn newline = new.splitOn newline := by
        rw [splitOn_linesOf, splitOn_linesOf, same]
      have joined (text : Bytes) : [newline].intercalate (text.splitOn newline) = text :=
        List.intercalate_splitOn newline
      have whole : old = new := by
        rw [← joined old, pieces, joined]
      rw [whole]
      rfl
  | cons first more =>
      have isLines : diffLines path index (first :: more) =
          fileHeader path index ++ (first :: more).flatMap hunkText :=
        if_neg (List.cons_ne_nil _ _)
      have areLines : ∀ line ∈ diffLines path index (first :: more), IsTextLine line := by
        intro line member
        refine ⟨?_, short line member⟩
        rw [isLines] at member
        rcases List.mem_append.mp member with inHeader | inHunks
        · exact noNewline_fileHeader isPath noNewline line inHeader
        · obtain ⟨hunk, isHunk, inHunk⟩ := List.mem_flatMap.mp inHunks
          exact noNewline_hunkText (sound hunk isHunk) line inHunk
      have readable : ∀ hunk ∈ first :: more, hunk.Readable := by
        intro hunk member
        obtain ⟨isBody, oldLen, newLen, _, oldStart, newStart, oldBound, newBound, _⟩ :=
          sound hunk member
        exact ⟨⟨by omega, by omega, by omega, by omega⟩, isBody, oldLen, newLen⟩
      obtain ⟨before, after, isParsed⟩ := parsePatchFile_diffText isPath areLines readable
      refine ⟨_, isParsed, ?_, fun part member => ?_⟩
      · rw [applyFile, if_pos rfl, applied]
        rfl
      · rw [List.mem_singleton.mp member]
        exact ⟨_, before, after, rfl⟩

end

/-- `a` without a line feed becomes `a` with one and a line `b`. -/
theorem diff_gives_new_sample :
    ∃ parts,
      parsePatchFile (ascii ("diff --git a/f b/f\nindex 1..2\n--- a/f\n+++ b/f\n" ++
        "@@ -1 +1,2 @@\n-a\n\\ No newline at end of file\n+a\n+b\n")) = .ok parts ∧
      applyFile (ascii "f") (ascii "a") parts = .ok (ascii "a\nb\n") ∧
      ∀ part ∈ parts, ∃ read before after, part = .filePatch (ascii "f") read before after := by
  have isDiff : IsDiff (ascii "a") (ascii "a\nb\n")
      [{ oldStart := 1, oldLen := 1, newStart := 1, newLen := 2, heading := [],
         body :=
          [{ ty := .deletion, lines := [{ text := [97], ended := false }] },
           { ty := .insertion,
             lines := [{ text := [97], ended := true }, { text := [98], ended := true }] }] }] := by
    have written {n : Nat} (empty : n + 2 = 0) : 0 = 0 ∧ linesOf (ascii "a\nb\n") = [] := by
      cases empty
    refine ⟨[], [], [], by decide, by decide, rfl, rfl, rfl, rfl, ⟨?_, ?_⟩, List.not_mem_nil,
      written, rfl⟩
    · decide
    · decide
  exact diff_gives_new (ascii "f") (ascii "1..2") ⟨by decide, by decide, by decide⟩ (by decide)
    isDiff (by decide) (by decide) (by decide) (by decide)

/-! ### Files above the limit -/

theorem linesOf_replicate (n : Nat) :
    linesOf (List.replicate n newline) = List.replicate n { text := [], ended := true } := by
  induction n with
  | zero => rfl
  | succ n ih =>
      rw [List.replicate_succ, List.replicate_succ, linesOf, if_pos rfl, ih]

/-- A file above the limit is not changed. -/
theorem applyFile_large {file new : Bytes} (path : Bytes) (large : maxFile < file.length)
    (differs : file ≠ new) (parts : List PatchFilePart) : applyFile path file parts ≠ .ok new := by
  induction parts with
  | nil => exact fun same => differs (Except.ok.inj same)
  | cons part parts ih =>
      cases part with
      | filePatch patched hunks before after =>
          rw [applyFile]
          split
          · rw [applyPatch, if_pos large]
            intro same
            cases same
          · exact ih
      | fileDeletion => exact ih
      | fileCreation => exact ih
      | fileRename => exact ih
      | fileModeChange => exact ih

/-- `x` is put into the first of empty lines. -/
def firstLineHunk : DiffHunk :=
  { oldStart := 1, oldLen := 1, newStart := 1, newLen := 1, heading := [],
    body :=
      [{ ty := .deletion, lines := [{ text := [], ended := true }] },
       { ty := .insertion, lines := [{ text := [120], ended := true }] }] }

theorem isDiff_firstLine (n : Nat) :
    IsDiff (List.replicate (n + 1) newline) (120 :: List.replicate (n + 1) newline)
      [firstLineHunk] := by
  unfold IsDiff
  have isOld := linesOf_replicate (n + 1)
  have isNew : linesOf (120 :: List.replicate (n + 1) newline) =
      { text := [120], ended := true } :: List.replicate n { text := [], ended := true } := by
    rw [linesOf, isOld]
    rfl
  rw [isOld, isNew]
  refine ⟨[], List.replicate n { text := [], ended := true },
    List.replicate n { text := [], ended := true }, rfl, rfl, rfl, rfl, rfl, rfl, ⟨?_, ?_⟩,
    List.not_mem_nil, fun empty => ?_, rfl⟩
  · decide
  · decide
  · cases empty

/-- One byte above four gibibytes, all of them line feeds. -/
theorem large_file_unchanged :
    IsDiff (List.replicate (4294967296 + 1) newline)
        (120 :: List.replicate (4294967296 + 1) newline) [firstLineHunk] ∧
      ¬∃ parts, parsePatchFile (diffText (ascii "f") (ascii "1..2") [firstLineHunk]) = .ok parts ∧
        applyFile (ascii "f") (List.replicate (4294967296 + 1) newline) parts =
          .ok (120 :: List.replicate (4294967296 + 1) newline) := by
  refine ⟨isDiff_firstLine 4294967296, ?_⟩
  rintro ⟨parts, _, isApplied⟩
  refine applyFile_large (ascii "f") ?_ ?_ parts isApplied
  · rw [List.length_replicate]
    decide
  · intro same
    have lengths := congrArg List.length same
    rw [List.length_cons, List.length_replicate] at lengths
    omega

end Bunx.Patch
