/-
Module: Bunx.Patch.ApplyPatch
Purpose: Changing the text of a file by the hunks of a patch, as the code does it.
Trusted boundary: hunks start at line one or later, as the parser makes them; the file reads
  as the text it is given and takes the text that is written.
Main exports: Failure, countLines, applyPatch, applyFile
-/
import Mathlib.Data.List.Basic
import Bunx.Lib.Segments
import Bunx.Patch.PatchFile

namespace Bunx.Patch

/-- How applying a patch fails. -/
inductive Failure where
  | einval
  | panics
deriving Repr, DecidableEq

/-- The limit of `read_file_alloc`. -/
def maxFile : Nat := 1024 * 1024 * 1024 * 4

/-! ### The size of the list of lines -/

def countPart (count : Nat) (part : PatchMutationPart) : Except Failure Nat :=
  match part.ty with
  | .deletion => .ok (if part.noNewlineAtEndOfFile then count + 1 else count)
  | .insertion =>
      if part.noNewlineAtEndOfFile then (if count = 0 then .error .panics else .ok (count - 1))
      else .ok count
  | .context => .ok count

def countHunk (count : Nat) (hunk : Hunk) : Except Failure Nat :=
  let changed : Int := count + hunk.header.patched.len - hunk.header.original.len
  if changed < 0 then .error .panics else hunk.parts.foldlM countPart changed.toNat

/-- The capacity for the lines, which is computed before any is changed. -/
def countLines (file : Bytes) (hunks : List Hunk) : Except Failure Nat :=
  hunks.foldlM countHunk (file.splitOn newline).length

/-! ### Hunks -/

/-- The lines and the cursor among them. -/
structure Buffer where
  lines : List Bytes
  lineCursor : Nat
deriving Repr, DecidableEq

/-- Whether the lines of the part are those of the file is not looked at. -/
def applyPart (b : Buffer) (part : PatchMutationPart) : Except Failure Buffer :=
  match part.ty with
  | .context =>
      if b.lineCursor + part.lines.length > b.lines.length then .error .einval
      else .ok { b with lineCursor := b.lineCursor + part.lines.length }
  | .insertion =>
      if b.lineCursor > b.lines.length then .error .einval
      else
        let lines := b.lines.take b.lineCursor ++ part.lines ++ b.lines.drop b.lineCursor
        .ok
          { lines := if part.noNewlineAtEndOfFile then lines.dropLast else lines
            lineCursor := b.lineCursor + part.lines.length }
  | .deletion =>
      if b.lineCursor + part.lines.length > b.lines.length then .error .einval
      else
        let lines :=
          b.lines.take b.lineCursor ++ b.lines.drop (b.lineCursor + part.lines.length)
        .ok { b with lines := if part.noNewlineAtEndOfFile then lines ++ [[]] else lines }

def applyHunk (lines : List Bytes) (hunk : Hunk) : Except Failure (List Bytes) :=
  let lineCursor := hunk.header.patched.start - 1
  if lineCursor > lines.length then .error .einval
  else do
    let b ← hunk.parts.foldlM applyPart { lines := lines, lineCursor := lineCursor }
    .ok b.lines

/-- `apply_patch` on a file with the given text. -/
def applyPatch (file : Bytes) (hunks : List Hunk) : Except Failure Bytes :=
  if file.length > maxFile then .error .einval
  else do
    let _ ← countLines file hunks
    let lines ← hunks.foldlM applyHunk (file.splitOn newline)
    .ok (Lib.joinWith newline lines)

/-- The changes of the text of the file at a path. -/
def applyFile (path : Bytes) (file : Bytes) : List PatchFilePart → Except Failure Bytes
  | [] => .ok file
  | .filePatch patched hunks _ _ :: parts =>
      if patched = path then do
        let file ← applyPatch file hunks
        applyFile path file parts
      else applyFile path file parts
  | _ :: parts => applyFile path file parts

end Bunx.Patch
