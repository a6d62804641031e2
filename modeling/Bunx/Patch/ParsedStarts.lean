/-
Module: Bunx.Patch.ParsedStarts
Purpose: Every hunk that is read from a patch file starts at line one or later.
Trusted boundary: none
Main exports: StartsAboveZero, LinesParser.Started, parsePatchFile_starts
-/
import Bunx.Patch.PatchFile

namespace Bunx.Patch

/-- A computation that succeeds went on with the result of its first step. -/
theorem bind_ok {ε α β : Type} {x : Except ε α} {f : α → Except ε β} {b : β}
    (succeeds : (x >>= f) = .ok b) : ∃ a, x = .ok a ∧ f a = .ok b := by
  cases x with
  | error e => cases succeeds
  | ok a => exact ⟨a, rfl, succeeds⟩

def StartsAboveZero (hunks : List Hunk) : Prop := ∀ hunk ∈ hunks, 1 ≤ hunk.header.patched.start

theorem StartsAboveZero.append {hunks : List Hunk} (starts : StartsAboveZero hunks) {hunk : Hunk}
    (start : 1 ≤ hunk.header.patched.start) : StartsAboveZero (hunks ++ [hunk]) := by
  intro found member
  rcases List.mem_append.mp member with before | last
  · exact starts found before
  · rw [List.mem_singleton.mp last]
    exact start

theorem parseHunkHeaderLineImpl_start {text : Bytes} {read : HunkHeaderLineImpl}
    (reads : parseHunkHeaderLineImpl text = .ok read) : 1 ≤ read.lineNr := by
  unfold parseHunkHeaderLineImpl at reads
  obtain ⟨⟨lineNr, text⟩, _, reads⟩ := bind_ok reads
  dsimp only at reads
  split at reads
  · cases reads
  · split at reads
    all_goals
      obtain ⟨⟨lineNrCount, text⟩, _, reads⟩ := bind_ok reads
      dsimp only at reads
      split at reads
      · cases reads
        exact Nat.le_max_left 1 _
      · cases reads

theorem parseHunkHeaderLine_start {line : Bytes} {hunk : Hunk}
    (reads : parseHunkHeaderLine line = .ok hunk) : 1 ≤ hunk.header.patched.start := by
  unfold parseHunkHeaderLine at reads
  dsimp only at reads
  split at reads
  · cases reads
  · obtain ⟨first, _, reads⟩ := bind_ok reads
    split at reads
    · cases reads
    · obtain ⟨second, readsSecond, reads⟩ := bind_ok reads
      split at reads
      · cases reads
        exact parseHunkHeaderLineImpl_start readsSecond
      · cases reads

namespace LinesParser

/-- All hunks that the parser holds start at line one or later. -/
structure Started (p : LinesParser) : Prop where
  result : ∀ deets ∈ p.result, StartsAboveZero deets.hunks
  file : StartsAboveZero p.currentFilePatch.hunks
  hunk : ∀ hunk, p.currentHunk = some hunk → 1 ≤ hunk.header.patched.start

theorem Started.setFile {p : LinesParser} (started : p.Started) {file : FileDeets}
    (same : file.hunks = p.currentFilePatch.hunks) : (p.setFile file).Started :=
  ⟨started.result, by rw [LinesParser.setFile, same]; exact started.file, started.hunk⟩

theorem Started.commitHunk {p : LinesParser} (started : p.Started) : p.commitHunk.Started := by
  unfold LinesParser.commitHunk
  cases current : p.currentHunk with
  | none => exact started
  | some hunk =>
      have start := started.hunk hunk current
      refine ⟨started.result, started.file.append ?_, fun _ none => by cases none⟩
      cases p.currentHunkMutationPart with
      | none => exact start
      | some part => exact start

theorem Started.commitFilePatch {p : LinesParser} (started : p.Started) :
    p.commitFilePatch.Started := by
  have committed := started.commitHunk
  refine ⟨?_, fun _ member => absurd member List.not_mem_nil, committed.hunk⟩
  intro deets member
  rcases List.mem_append.mp member with before | last
  · exact committed.result deets before
  · rw [List.mem_singleton.mp last]
    exact committed.file

theorem Started.headerLine {p q : LinesParser} {line : Bytes} (started : p.Started)
    (reads : p.headerLine line = .ok q) : q.Started := by
  unfold LinesParser.headerLine at reads
  dsimp only at reads
  split at reads
  · have before : (if p.currentFilePatch.diffLineFromPath.isSome then p.commitFilePatch
        else p).Started := by
      split
      · exact started.commitFilePatch
      · exact started
    split at reads
    · cases reads
    · cases reads
      exact before.setFile rfl
  · repeat' split at reads
    all_goals
      cases reads
      first
        | exact started
        | exact started.setFile rfl

theorem Started.partLine {p q : LinesParser} {ty : PartType} {line : Bytes} (started : p.Started)
    (reads : p.partLine ty line = .ok q) : q.Started := by
  unfold LinesParser.partLine at reads
  cases current : p.currentHunk with
  | none =>
      rw [current] at reads
      cases reads
  | some hunk =>
      have start := started.hunk hunk current
      rw [current] at reads
      cases reads
      refine ⟨started.result, started.file, ?_⟩
      intro found same
      cases same
      split
      · split
        · exact start
        · exact start
      · exact start

theorem Started.hunkLine {p q : LinesParser} {ty : HunkLineType} {line : Bytes}
    (started : p.Started) (reads : p.hunkLine ty line = .ok q) : q.Started := by
  cases ty with
  | header =>
      obtain ⟨hunk, readsHunk, reads⟩ := bind_ok reads
      cases reads
      refine ⟨started.commitHunk.result, started.commitHunk.file, ?_⟩
      intro found same
      cases same
      exact parseHunkHeaderLine_start readsHunk
  | pragma =>
      unfold LinesParser.hunkLine at reads
      dsimp only at reads
      split at reads
      · cases reads
      · split at reads
        · cases reads
        · cases reads
          exact ⟨started.result, started.file, started.hunk⟩
  | part ty => exact started.partLine reads

theorem Started.step {p q : LinesParser} {legacy back : Bool} {line : Bytes} (started : p.Started)
    (reads : p.step legacy line = .ok (q, back)) : q.Started := by
  unfold LinesParser.step at reads
  split at reads
  · split at reads
    · cases reads
      exact ⟨started.result, fun _ member => absurd member List.not_mem_nil, started.hunk⟩
    · obtain ⟨r, readsLine, reads⟩ := bind_ok reads
      cases reads
      exact started.headerLine readsLine
  · have header : ({ p with state := .parsingHeader } : LinesParser).Started :=
      ⟨started.result, started.file, started.hunk⟩
    split at reads
    · cases reads
      exact header.commitFilePatch
    · split at reads
      · cases reads
        exact header.commitFilePatch
      · obtain ⟨r, readsLine, reads⟩ := bind_ok reads
        cases reads
        exact started.hunkLine readsLine

end LinesParser

theorem parseLoop_started {legacy : Bool} : ∀ (fuel : Nat) {p q : LinesParser}
    {text : Option Bytes}, p.Started → parseLoop legacy fuel p text = .ok q → q.Started
  | 0, p, q, text, started, reads => by
      cases reads
      exact started
  | fuel + 1, p, q, none, started, reads => by
      cases reads
      exact started
  | fuel + 1, p, q, some text, started, reads => by
      rw [parseLoop] at reads
      obtain ⟨⟨next, back⟩, steps, reads⟩ := bind_ok reads
      exact parseLoop_started fuel (started.step steps) reads

theorem parse_starts {legacy : Bool} {file : Bytes} {files : List FileDeets}
    (reads : parse legacy file = .ok files) : ∀ deets ∈ files, StartsAboveZero deets.hunks := by
  have new : LinesParser.Started {} :=
    ⟨fun _ member => absurd member List.not_mem_nil, fun _ member => absurd member List.not_mem_nil,
      fun _ none => by cases none⟩
  unfold parse at reads
  dsimp only at reads
  generalize (if file.getLast? = some newline then file.dropLast else file) = text at reads
  split at reads
  · cases reads
    exact fun _ member => absurd member List.not_mem_nil
  · obtain ⟨p, loops, reads⟩ := bind_ok reads
    split at reads
    · cases reads
      exact (parseLoop_started _ new loops).commitFilePatch.result
    · cases reads

/-! ### The second pass -/

theorem FileDeets.firstPart_patches {file : FileDeets} {first : List PatchFilePart}
    {destination : Option Bytes} (reads : file.firstPart = .ok (first, destination))
    {path : Bytes} {hunks : List Hunk} {before after : Option Bytes} :
    .filePatch path hunks before after ∉ first := by
  unfold FileDeets.firstPart at reads
  cases kind : file.kind with
  | fileRename =>
      rw [kind] at reads
      dsimp only at reads
      split at reads
      · cases reads
        simp
      · cases reads
  | fileDeletion =>
      rw [kind] at reads
      obtain ⟨path, _, reads⟩ := bind_ok reads
      obtain ⟨mode, _, reads⟩ := bind_ok reads
      cases reads
      simp
  | fileCreation =>
      rw [kind] at reads
      obtain ⟨path, _, reads⟩ := bind_ok reads
      obtain ⟨mode, _, reads⟩ := bind_ok reads
      cases reads
      simp
  | filePatch =>
      rw [kind] at reads
      cases reads
      simp
  | fileModeChange =>
      rw [kind] at reads
      cases reads
      simp

/-- The hunks of a patch part are those of its file. -/
theorem FileDeets.parts_hunks {file : FileDeets} {parts : List PatchFilePart}
    (reads : file.parts = .ok parts) {path : Bytes} {hunks : List Hunk}
    {before after : Option Bytes} (member : .filePatch path hunks before after ∈ parts) :
    hunks = file.hunks := by
  unfold FileDeets.parts at reads
  obtain ⟨⟨first, destination⟩, readsFirst, reads⟩ := bind_ok reads
  have inPatch {modes patch : List PatchFilePart}
      (notMode : .filePatch path hunks before after ∉ modes)
      (member : .filePatch path hunks before after ∈ first ++ modes ++ patch) :
      .filePatch path hunks before after ∈ patch := by
    rcases List.mem_append.mp member with early | inPatch
    · rcases List.mem_append.mp early with inFirst | inModes
      · exact absurd inFirst (FileDeets.firstPart_patches readsFirst)
      · exact absurd inModes notMode
    · exact inPatch
  cases destination with
  | none =>
      cases reads
      exact absurd (inPatch List.not_mem_nil member) List.not_mem_nil
  | some target =>
      have here (inside : PatchFilePart.filePatch path hunks before after ∈
          if file.hunks ≠ [] then
            [PatchFilePart.filePatch target file.hunks file.beforeHash file.afterHash]
          else []) : hunks = file.hunks := by
        split at inside
        · cases List.mem_singleton.mp inside
          rfl
        · exact absurd inside List.not_mem_nil
      dsimp only at reads
      split at reads
      · split at reads
        · obtain ⟨old, _, reads⟩ := bind_ok reads
          obtain ⟨new, _, reads⟩ := bind_ok reads
          cases reads
          refine here (inPatch ?_ member)
          rw [List.mem_singleton]
          intro same
          cases same
        · cases reads
          exact here (inPatch List.not_mem_nil member)
      · cases reads
        exact here (inPatch List.not_mem_nil member)

theorem patchFileSecondPass_hunks : ∀ {files : List FileDeets} {parts : List PatchFilePart},
    patchFileSecondPass files = .ok parts →
      ∀ {path : Bytes} {hunks : List Hunk} {before after : Option Bytes},
        .filePatch path hunks before after ∈ parts → ∃ file ∈ files, hunks = file.hunks
  | [], parts, reads, _, _, _, _, member => by
      cases reads
      exact absurd member List.not_mem_nil
  | file :: files, parts, reads, path, hunks, before, after, member => by
      rw [patchFileSecondPass] at reads
      obtain ⟨first, readsFirst, reads⟩ := bind_ok reads
      obtain ⟨more, readsMore, reads⟩ := bind_ok reads
      cases reads
      rcases List.mem_append.mp member with here | later
      · exact ⟨file, List.mem_cons_self, FileDeets.parts_hunks readsFirst here⟩
      · obtain ⟨found, inFiles, same⟩ := patchFileSecondPass_hunks readsMore later
        exact ⟨found, List.mem_cons_of_mem _ inFiles, same⟩

/-- The hunks of an accepted patch file start at line one or later. -/
theorem parsePatchFile_starts {text : Bytes} {parts : List PatchFilePart}
    (accepted : parsePatchFile text = .ok parts) {path : Bytes} {hunks : List Hunk}
    {before after : Option Bytes} (member : .filePatch path hunks before after ∈ parts) :
    StartsAboveZero hunks := by
  have starts {legacy : Bool} {files : List FileDeets} (reads : parse legacy text = .ok files)
      (second : patchFileSecondPass files = .ok parts) : StartsAboveZero hunks := by
    obtain ⟨file, inFiles, same⟩ := patchFileSecondPass_hunks second member
    rw [same]
    exact parse_starts reads file inFiles
  unfold parsePatchFile at accepted
  split at accepted
  · rename_i reads
    exact starts reads accepted
  · obtain ⟨files, reads, second⟩ := bind_ok accepted
    exact starts reads second
  · cases accepted

end Bunx.Patch
