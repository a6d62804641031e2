/-
Module: Bunx.Patch.ApplyDiff
Purpose: The hunks of a diff turn the old text into the new one.
Trusted boundary: none
Main exports: Run.part, DiffHunk.parsed, applyHunks_covers, applyPatch_diff
-/
import Mathlib.Data.List.Basic
import Bunx.Patch.ApplyPatch
import Bunx.Patch.Diff

namespace Bunx.Patch

open Lib

/-! ### The hunks as they are read -/

/-- Whether a line of the run lacks its line feed. -/
def Run.missing (run : Run) : Bool := run.lines.any fun line => !line.ended

def Run.part (run : Run) : PatchMutationPart :=
  { ty := run.ty, lines := run.lines.map Line.text, noNewlineAtEndOfFile := run.missing }

/-- The numbers count from one. -/
def DiffHunk.parsed (hunk : DiffHunk) : Hunk :=
  { header :=
      { original := { start := max 1 hunk.oldStart, len := hunk.oldLen }
        patched := { start := max 1 hunk.newStart, len := hunk.newLen } }
    parts := hunk.body.map Run.part }

def Run.old (run : Run) : List Line := if run.ty = .insertion then [] else run.lines

def Run.new (run : Run) : List Line := if run.ty = .deletion then [] else run.lines

@[simp] theorem oldSide_cons (run : Run) (body : List Run) :
    oldSide (run :: body) = run.old ++ oldSide body := rfl

@[simp] theorem newSide_cons (run : Run) (body : List Run) :
    newSide (run :: body) = run.new ++ newSide body := rfl

/-! ### Lines that lack their line feed -/

section

variable {front back lines : List Line}

theorem not_missing {run : Run} (isEnded : run.missing = false) :
    run.lines.all Line.ended = true := by
  unfold Run.missing at isEnded
  simpa using isEnded

theorem missing_not_all {run : Run} (isMissing : run.missing = true) :
    run.lines.all Line.ended = false := by
  unfold Run.missing at isMissing
  simpa using isMissing

theorem IsFile.append (isFile : IsFile (front ++ back)) : IsFile front ∧ IsFile back := by
  unfold IsFile at isFile ⊢
  rw [List.pairwise_append] at isFile
  exact ⟨isFile.1, isFile.2.1⟩

/-- Lines with a line behind them are ended. -/
theorem IsFile.all_ended (isFile : IsFile (front ++ back)) (someBack : back ≠ []) :
    front.all Line.ended = true := by
  unfold IsFile at isFile
  rw [List.pairwise_append] at isFile
  obtain ⟨last, member⟩ := List.exists_mem_of_ne_nil back someBack
  rw [List.all_eq_true]
  exact fun line inFront => isFile.2.2 line inFront last member

/-- Nothing is behind a line that lacks its line feed. -/
theorem IsFile.nil_of_missing {run : Run} (isFile : IsFile (run.lines ++ back))
    (isMissing : run.missing = true) : back = [] := by
  by_contra someBack
  have allEnded := isFile.all_ended someBack
  rw [missing_not_all isMissing] at allEnded
  cases allEnded

theorem lastPiece_of_all (allEnded : lines.all Line.ended = true) : lastPiece lines = [[]] :=
  if_pos allEnded

theorem lastPiece_of_not_all (notAll : lines.all Line.ended = false) : lastPiece lines = [] := by
  apply if_neg
  rw [notAll]
  exact Bool.false_ne_true

/-- Ended lines in the middle do not matter. -/
theorem lastPiece_middle (allEnded : lines.all Line.ended = true) :
    lastPiece (front ++ (lines ++ back)) = lastPiece (front ++ back) := by
  unfold lastPiece
  rw [List.all_append, List.all_append, List.all_append, allEnded, Bool.true_and]

end

/-! ### One run -/

section

variable {front back : List Line} {run : Run}

/-- Where the last line of the file is taken away or put, what is before it is ended. -/
def AtEnd (front back : List Line) (run : Run) : Prop :=
  run.ty ≠ .context → run.missing = true → back = [] ∧ front.all Line.ended = true

theorem take_pieces (front rest : List Line) :
    (pieces (front ++ rest)).take front.length = front.map Line.text := by
  unfold pieces
  rw [List.map_append, List.append_assoc]
  exact List.take_left' (List.length_map ..)

theorem drop_pieces (front rest : List Line) :
    (pieces (front ++ rest)).drop front.length =
      rest.map Line.text ++ lastPiece (front ++ rest) := by
  unfold pieces
  rw [List.map_append, List.append_assoc]
  exact List.drop_left' (List.length_map ..)

theorem length_pieces (front rest : List Line) :
    (pieces (front ++ rest)).length =
      front.length + rest.length + (lastPiece (front ++ rest)).length := by
  unfold pieces
  rw [List.length_append, List.length_map, List.length_append]

theorem applyPart_context (front lines back : List Line) (flag : Bool) :
    applyPart { lines := pieces (front ++ (lines ++ back)), lineCursor := front.length }
        { ty := .context, lines := lines.map Line.text, noNewlineAtEndOfFile := flag } =
      .ok { lines := pieces ((front ++ lines) ++ back), lineCursor := (front ++ lines).length } := by
  have bound := length_pieces front (lines ++ back)
  rw [List.length_append] at bound
  unfold applyPart
  dsimp only
  rw [List.length_map, if_neg (by omega), List.append_assoc, List.length_append]

theorem applyPart_insertion (front lines back : List Line) (flag : Bool)
    (atEnd : flag = true → back = [] ∧ front.all Line.ended = true ∧
      lines.all Line.ended = false)
    (ended : flag = false → lines.all Line.ended = true) :
    applyPart { lines := pieces (front ++ back), lineCursor := front.length }
        { ty := .insertion, lines := lines.map Line.text, noNewlineAtEndOfFile := flag } =
      .ok { lines := pieces ((front ++ lines) ++ back), lineCursor := (front ++ lines).length } := by
  have bound := length_pieces front back
  unfold applyPart
  dsimp only
  rw [take_pieces, drop_pieces, if_neg (by omega), List.length_map, List.length_append]
  cases flag with
  | false =>
      rw [if_neg Bool.false_ne_true, List.append_assoc front, pieces,
        lastPiece_middle (ended rfl), List.map_append, List.map_append]
      simp only [List.append_assoc]
  | true =>
      obtain ⟨rfl, allFront, notAll⟩ := atEnd rfl
      have notAllLines : (front ++ lines).all Line.ended = false := by
        rw [List.all_append, allFront, notAll]
        rfl
      rw [if_pos rfl, List.append_nil, List.append_nil, lastPiece_of_all allFront, pieces,
        lastPiece_of_not_all notAllLines, List.map_append, List.map_nil, List.nil_append,
        List.dropLast_concat, List.append_nil]

theorem applyPart_deletion (front lines back : List Line) (flag : Bool)
    (atEnd : flag = true → back = [] ∧ front.all Line.ended = true ∧
      lines.all Line.ended = false)
    (ended : flag = false → lines.all Line.ended = true) :
    applyPart { lines := pieces (front ++ (lines ++ back)), lineCursor := front.length }
        { ty := .deletion, lines := lines.map Line.text, noNewlineAtEndOfFile := flag } =
      .ok { lines := pieces (front ++ back), lineCursor := front.length } := by
  have bound := length_pieces front (lines ++ back)
  rw [List.length_append] at bound
  have behind : (pieces (front ++ (lines ++ back))).drop (front.length + lines.length) =
      back.map Line.text ++ lastPiece (front ++ (lines ++ back)) := by
    have dropped := drop_pieces (front ++ lines) back
    rw [List.length_append, List.append_assoc] at dropped
    exact dropped
  unfold applyPart
  dsimp only
  rw [List.length_map, if_neg (by omega), take_pieces, behind]
  cases flag with
  | false =>
      rw [if_neg Bool.false_ne_true, lastPiece_middle (ended rfl), pieces, List.map_append,
        List.append_assoc]
  | true =>
      obtain ⟨rfl, allFront, notAll⟩ := atEnd rfl
      have notAllLines : (front ++ (lines ++ [])).all Line.ended = false := by
        rw [List.append_nil, List.all_append, allFront, notAll]
        rfl
      rw [if_pos rfl, lastPiece_of_not_all notAllLines]
      simp [pieces, lastPiece_of_all allFront]

theorem applyPart_run (atEnd : AtEnd front back run) :
    applyPart { lines := pieces (front ++ (run.old ++ back)), lineCursor := front.length }
        run.part =
      .ok { lines := pieces ((front ++ run.new) ++ back),
            lineCursor := (front ++ run.new).length } := by
  have isEnd (changes : run.ty ≠ .context) (isMissing : run.missing = true) :
      back = [] ∧ front.all Line.ended = true ∧ run.lines.all Line.ended = false := by
    obtain ⟨none, allFront⟩ := atEnd changes isMissing
    exact ⟨none, allFront, missing_not_all isMissing⟩
  unfold Run.part Run.old Run.new
  cases kind : run.ty with
  | context => exact applyPart_context front run.lines back run.missing
  | insertion =>
      exact applyPart_insertion front run.lines back run.missing
        (isEnd (by rw [kind]; decide)) not_missing
  | deletion =>
      have deleted := applyPart_deletion front run.lines back run.missing
        (isEnd (by rw [kind]; decide)) not_missing
      rw [if_pos rfl, List.append_nil]
      exact deleted

/-- The capacity follows the last piece. -/
theorem countPart_run (atEnd : AtEnd front back run) (others : Nat) :
    countPart (others + (lastPiece (front ++ (run.old ++ back))).length) run.part =
      .ok (others + (lastPiece ((front ++ run.new) ++ back)).length) := by
  have same (allEnded : run.lines.all Line.ended = true) :
      lastPiece (front ++ (run.lines ++ back)) = lastPiece (front ++ back) :=
    lastPiece_middle allEnded
  have gone (changes : run.ty ≠ .context) (isMissing : run.missing = true) :
      lastPiece (front ++ back) = [[]] ∧ lastPiece (front ++ (run.lines ++ back)) = [] := by
    obtain ⟨rfl, allFront⟩ := atEnd changes isMissing
    refine ⟨?_, ?_⟩
    · rw [List.append_nil, lastPiece_of_all allFront]
    · apply lastPiece_of_not_all
      rw [List.append_nil, List.all_append, allFront, missing_not_all isMissing]
      rfl
  unfold countPart Run.part Run.old Run.new
  cases kind : run.ty with
  | context => simp
  | insertion =>
      rw [List.append_assoc]
      cases isMissing : run.missing with
      | false => simp [same (not_missing isMissing)]
      | true =>
          obtain ⟨before, after⟩ := gone (by rw [kind]; decide) isMissing
          simp [before, after]
  | deletion =>
      cases isMissing : run.missing with
      | false => simp [same (not_missing isMissing)]
      | true =>
          obtain ⟨after, before⟩ := gone (by rw [kind]; decide) isMissing
          simp [before, after]

end

/-! ### The runs of a hunk -/

/-- What is written so far lacks no line feed, unless nothing of the old file is left. -/
def Sealed (front rest : List Line) : Prop := front.all Line.ended = true ∨ rest = []

theorem Sealed.all {front rest : List Line} (isSealed : Sealed front rest) (some : rest ≠ []) :
    front.all Line.ended = true := isSealed.resolve_right some

/-- Lines that are kept. -/
theorem Sealed.keep {front lines rest : List Line} (isSealed : Sealed front (lines ++ rest))
    (isFile : IsFile (lines ++ rest)) : Sealed (front ++ lines) rest := by
  by_cases none : rest = []
  · exact .inr none
  · have allFront := isSealed.all (List.append_ne_nil_of_right_ne_nil lines none)
    left
    rw [List.all_append, allFront, isFile.all_ended none]
    rfl

section

variable {front oldRest newRest : List Line} {run : Run} {body : List Run}

theorem newSide_nil (nonempty : ∀ run ∈ body, run.lines ≠ []) (none : newSide body = []) :
    ∀ run ∈ body, run.ty = .deletion := by
  intro run member
  by_contra notDeletion
  have inside := List.flatMap_eq_nil_iff.mp none run member
  rw [if_neg notDeletion] at inside
  exact nonempty run member inside

/-- What a run does at the end of the file; where the new file ends, so does the old one. -/
theorem atEnd_run (isBody : IsBody (run :: body))
    (isOld : IsFile (oldSide (run :: body) ++ oldRest))
    (isNew : IsFile (front ++ newSide (run :: body) ++ newRest))
    (isSealed : Sealed front (oldSide (run :: body) ++ oldRest))
    (closes : newRest = [] → front ++ newSide (run :: body) ≠ [] → oldRest = []) :
    AtEnd front (oldSide body ++ oldRest) run ∧
      Sealed (front ++ run.new) (oldSide body ++ oldRest) := by
  have someLines := isBody.nonempty run List.mem_cons_self
  rw [oldSide_cons, List.append_assoc] at isOld isSealed
  rw [newSide_cons, List.append_assoc, List.append_assoc] at isNew
  unfold AtEnd
  cases kind : run.ty with
  | context =>
      have oldLines : run.old = run.lines := by rw [Run.old, kind]; rfl
      have newLines : run.new = run.lines := by rw [Run.new, kind]; rfl
      rw [oldLines] at isOld isSealed
      rw [newLines]
      exact ⟨fun changes => absurd rfl changes, isSealed.keep isOld⟩
  | deletion =>
      have oldLines : run.old = run.lines := by rw [Run.old, kind]; rfl
      have newLines : run.new = [] := by rw [Run.new, kind]; rfl
      rw [oldLines] at isOld isSealed
      have allFront := isSealed.all (List.append_ne_nil_of_left_ne_nil someLines _)
      rw [newLines, List.append_nil]
      exact ⟨fun _ isMissing => ⟨isOld.nil_of_missing isMissing, allFront⟩, .inl allFront⟩
  | insertion =>
      have oldLines : run.old = [] := by rw [Run.old, kind]; rfl
      have newLines : run.new = run.lines := by rw [Run.new, kind]; rfl
      rw [oldLines, List.nil_append] at isOld isSealed
      rw [newSide_cons, newLines] at closes
      rw [newLines] at isNew ⊢
      have allFront := isNew.all_ended (List.append_ne_nil_of_left_ne_nil someLines _)
      -- the last line of the new file is the last of the hunk, and of the old file
      have nothingLeft (isMissing : run.missing = true) : oldSide body ++ oldRest = [] := by
        have none := isNew.append.2.nil_of_missing isMissing
        obtain ⟨noNew, rfl⟩ := List.append_eq_nil_iff.mp none
        have noBody : body = [] := by
          cases body with
          | nil => rfl
          | cons next body =>
              have isDeletion := newSide_nil
                (fun r member => isBody.nonempty r (List.mem_cons_of_mem run member)) noNew next
                List.mem_cons_self
              have ordered := (List.isChain_cons_cons.mp isBody.ordered).1
              exact absurd ⟨kind, isDeletion⟩ ordered.2
        subst noBody
        exact closes rfl (List.append_ne_nil_of_right_ne_nil front
          (List.append_ne_nil_of_left_ne_nil someLines _))
      refine ⟨fun _ isMissing => ⟨nothingLeft isMissing, allFront⟩, ?_⟩
      cases isMissing : run.missing with
      | true => exact .inr (nothingLeft isMissing)
      | false =>
          left
          rw [List.all_append, allFront, not_missing isMissing]
          rfl

theorem IsBody.tail (isBody : IsBody (run :: body)) : IsBody body := by
  refine ⟨fun r member => isBody.nonempty r (List.mem_cons_of_mem run member), ?_⟩
  cases body with
  | nil => exact List.IsChain.nil
  | cons next body => exact (List.isChain_cons_cons.mp isBody.ordered).2

/-- The runs of a hunk take its old side out of the lines and put the new one in. -/
theorem applyParts_body (isBody : IsBody body) (isOld : IsFile (oldSide body ++ oldRest))
    (isNew : IsFile (front ++ newSide body ++ newRest))
    (isSealed : Sealed front (oldSide body ++ oldRest))
    (closes : newRest = [] → front ++ newSide body ≠ [] → oldRest = []) (others : Nat) :
    (body.map Run.part).foldlM applyPart
        { lines := pieces (front ++ (oldSide body ++ oldRest)), lineCursor := front.length } =
      .ok { lines := pieces ((front ++ newSide body) ++ oldRest),
            lineCursor := (front ++ newSide body).length } ∧
    (body.map Run.part).foldlM countPart
        (others + (lastPiece (front ++ (oldSide body ++ oldRest))).length) =
      .ok (others + (lastPiece ((front ++ newSide body) ++ oldRest)).length) ∧
    Sealed (front ++ newSide body) oldRest := by
  induction body generalizing front with
  | nil =>
      have noNew : front ++ newSide [] = front := List.append_nil front
      rw [noNew]
      exact ⟨rfl, rfl, isSealed⟩
  | cons run body ih =>
      obtain ⟨atEnd, stillSealed⟩ := atEnd_run isBody isOld isNew isSealed closes
      have isOldSide : oldSide (run :: body) ++ oldRest = run.old ++ (oldSide body ++ oldRest) :=
        List.append_assoc run.old (oldSide body) oldRest
      have isNewSide : front ++ newSide (run :: body) = front ++ run.new ++ newSide body :=
        (List.append_assoc front run.new (newSide body)).symm
      rw [isOldSide] at isOld
      rw [isNewSide] at isNew closes ⊢
      obtain ⟨applied, counted, later⟩ := ih isBody.tail isOld.append.2 isNew
        stillSealed closes
      rw [isOldSide, List.map_cons, List.foldlM_cons, List.foldlM_cons, applyPart_run atEnd, countPart_run atEnd]
      exact ⟨applied, counted, later⟩

end

/-! ### All hunks -/

/-- Where nothing of a new file that is not empty is left, nothing of the old one is. -/
theorem Covers.closes {oldBefore newBefore : Nat} {old new : List Line} {hunks : List DiffHunk}
    (covers : Covers oldBefore newBefore old new hunks) (noNew : new = [])
    (written : newBefore ≠ 0) : old = [] := by
  subst noNew
  cases hunks with
  | nil => exact covers
  | cons hunk hunks =>
      obtain ⟨gap, oldRest, newRest, _, isNew, _, newLen, _, _, _, _, empty, _⟩ := covers
      have parts := List.append_eq_nil_iff.mp isNew.symm
      have none := (List.append_eq_nil_iff.mp parts.1).2
      rw [none] at newLen
      exact absurd (empty newLen).1 written

/-- The new side of a hunk starts behind the lines before it. -/
theorem cursor_eq {hunk : DiffHunk} {front gap new : List Line}
    (starts : hunk.newStart = startOf (front.length + gap.length) hunk.newLen)
    (isNew : ∃ rest, new = gap ++ rest)
    (empty : hunk.newLen = 0 → front.length = 0 ∧ new = []) :
    hunk.parsed.header.patched.start - 1 = (front ++ gap).length := by
  have isStart : hunk.parsed.header.patched.start = max 1 hunk.newStart := rfl
  rw [isStart, starts, startOf, List.length_append]
  split
  · rename_i none
    obtain ⟨rest, whole⟩ := isNew
    obtain ⟨noFront, noNew⟩ := empty none
    rw [noNew] at whole
    obtain rfl := (List.append_eq_nil_iff.mp whole.symm).1
    rw [noFront]
    rfl
  · omega

theorem applyHunks_covers (front : List Line) {old new : List Line} {oldBefore : Nat} (hunks : List DiffHunk)
    (covers : Covers oldBefore front.length old new hunks) (isOld : IsFile old)
    (isNew : IsFile (front ++ new)) (isSealed : Sealed front old) :
    (hunks.map DiffHunk.parsed).foldlM applyHunk (pieces (front ++ old)) =
        .ok (pieces (front ++ new)) ∧
      (hunks.map DiffHunk.parsed).foldlM countHunk (pieces (front ++ old)).length =
        .ok (pieces (front ++ new)).length := by
  induction hunks generalizing front old new oldBefore with
  | nil =>
      have same : old = new := covers
      rw [same]
      exact ⟨rfl, rfl⟩
  | cons hunk hunks ih =>
      obtain ⟨gap, oldRest, newRest, rfl, rfl, oldLen, newLen, _, newStart, isBody, _, empty,
        later⟩ := covers
      have cursor := cursor_eq newStart ⟨_, List.append_assoc gap _ _⟩ empty
      rw [List.append_assoc] at isOld isSealed
      have wholeNew : front ++ (gap ++ newSide hunk.body ++ newRest) =
          front ++ gap ++ newSide hunk.body ++ newRest := by simp only [List.append_assoc]
      have wholeOld : front ++ (gap ++ oldSide hunk.body ++ oldRest) =
          front ++ gap ++ (oldSide hunk.body ++ oldRest) := by simp only [List.append_assoc]
      have before : front.length + gap.length + hunk.newLen =
          (front ++ gap ++ newSide hunk.body).length := by
        rw [newLen, List.length_append, List.length_append]
      rw [before] at later
      rw [wholeNew] at isNew ⊢
      rw [wholeOld]
      have closes (noNew : newRest = []) (written : front ++ gap ++ newSide hunk.body ≠ []) :
          oldRest = [] :=
        later.closes noNew (mt List.length_eq_zero_iff.mp written)
      obtain ⟨applied, counted, stillSealed⟩ := applyParts_body isBody isOld.append.2 isNew
        (isSealed.keep isOld) closes (front.length + gap.length + (newSide hunk.body).length +
          oldRest.length)
      obtain ⟨appliedLater, countedLater⟩ := ih _ later isOld.append.2.append.2
        isNew stillSealed
      have bound := length_pieces (front ++ gap) (oldSide hunk.body ++ oldRest)
      have after := length_pieces (front ++ gap ++ newSide hunk.body) oldRest
      rw [List.length_append, List.length_append] at bound
      rw [List.length_append, List.length_append] at after
      rw [List.map_cons, List.foldlM_cons, List.foldlM_cons]
      constructor
      · unfold applyHunk
        rw [cursor]
        dsimp only
        rw [if_neg (by rw [List.length_append]; omega)]
        have isParts : hunk.parsed.parts = hunk.body.map Run.part := rfl
        rw [isParts, applied]
        exact appliedLater
      · have isCount : countHunk (pieces (front ++ gap ++ (oldSide hunk.body ++ oldRest))).length
            hunk.parsed = .ok (pieces (front ++ gap ++ newSide hunk.body ++ oldRest)).length := by
          have isPatched : hunk.parsed.header.patched.len = (newSide hunk.body).length := newLen
          have isOriginal : hunk.parsed.header.original.len = (oldSide hunk.body).length := oldLen
          have isParts : hunk.parsed.parts = hunk.body.map Run.part := rfl
          unfold countHunk
          rw [isPatched, isOriginal, isParts]
          dsimp only
          rw [if_neg (by omega), after, ← counted]
          congr 1
          omega
        rw [isCount]
        exact countedLater

/-- The hunks of a diff between two texts change the one into the other. -/
theorem applyPatch_diff {old new : Bytes} {hunks : List DiffHunk} (isDiff : IsDiff old new hunks)
    (fits : old.length ≤ maxFile) :
    applyPatch old (hunks.map DiffHunk.parsed) = .ok new := by
  have isSealed : Sealed [] (linesOf old) := .inl rfl
  obtain ⟨applied, counted⟩ := applyHunks_covers [] hunks isDiff (isFile_linesOf old)
    (isFile_linesOf new) isSealed
  rw [List.nil_append, List.nil_append] at applied counted
  unfold applyPatch countLines
  rw [if_neg (Nat.not_lt.mpr fits), splitOn_linesOf, counted, applied, ← splitOn_linesOf]
  exact congrArg Except.ok (List.intercalate_splitOn newline)

end Bunx.Patch
