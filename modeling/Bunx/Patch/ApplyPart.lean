/-
Module: Bunx.Patch.ApplyPart
Purpose: What applying one part of a patch does to the file it is about, as the code does it.
Trusted boundary: the file system serves every request.
Main exports:
  isSafePatchPath, creationCount, fillLines, fileContents, Outcome, applyFilePatch,
  applyFileCreation
-/
import Bunx.Patch.ApplyPatch

namespace Bunx.Patch

/-! ### Paths -/

def isSeparator (c : UInt8) : Bool := c == 0x2f || c == 0x5c

/-- `is_absolute_loose`. -/
def isAbsoluteLoose : Bytes → Bool
  | [] => false
  | c :: rest =>
      isSeparator c ||
        match rest with
        | colon :: separator :: _ => colon == 0x3a && isSeparator separator
        | _ => false

/-- `is_safe_patch_path`. -/
def isSafePatchPath (path : Bytes) : Bool :=
  !path.isEmpty && !isAbsoluteLoose path &&
    !(path.splitOnP isSeparator).any (· == [0x2e, 0x2e])

/-! ### The text of a new file -/

/-- The size of the new text. -/
def creationCount (part : PatchMutationPart) : Nat :=
  (part.lines.map List.length).sum + (part.lines.length - 1) +
    (if part.noNewlineAtEndOfFile then 0 else 1)

/-- Bytes are copied over those at an index. -/
def copyInto (contents : Bytes) (i : Nat) (bytes : Bytes) : Except Failure Bytes :=
  if i + bytes.length > contents.length then .error .panics
  else .ok (contents.take i ++ bytes ++ contents.drop (i + bytes.length))

/-- The loop that fills the new text, from the line at `idx` on. -/
def fillLines (lastLine : Nat) (noNewline : Bool) :
    Nat → List Bytes → Nat → Bytes → Except Failure Bytes
  | _, [], _, contents => .ok contents
  | idx, line :: lines, i, contents =>
      match copyInto contents i line with
      | .error e => .error e
      | .ok contents =>
          let i := i + line.length
          if idx < lastLine ∨ !noNewline then
            match copyInto contents i [newline] with
            | .error e => .error e
            | .ok contents => fillLines lastLine noNewline (idx + 1) lines (i + 1) contents
          else fillLines lastLine noNewline (idx + 1) lines i contents

def fileContents (part : PatchMutationPart) : Except Failure Bytes :=
  fillLines (part.lines.length - 1) part.noNewlineAtEndOfFile 0 part.lines 0
    (List.replicate (creationCount part) 0)

/-! ### The file behind a part -/

/-- How applying a part ends, and the text that the file has then, if it is there. -/
structure Outcome where
  result : Except Failure Unit
  file : Option Bytes
deriving DecidableEq

/-- A `FilePatch` part. The file is opened for writing when all its new lines are known. -/
def applyFilePatch (path : Bytes) (hunks : List Hunk) (file : Bytes) : Outcome :=
  if !isSafePatchPath path then { result := .error .einval, file := some file }
  else
    match applyPatch file hunks with
    | .error e => { result := .error e, file := some file }
    | .ok contents => { result := .ok (), file := some contents }

/-- A `FileCreation` part. The file is emptied before the hunk is looked at. -/
def applyFileCreation (path : Bytes) (hunk : Option Hunk) (file : Option Bytes) : Outcome :=
  if !isSafePatchPath path then { result := .error .einval, file := file }
  else
    match hunk with
    | none => { result := .ok (), file := some [] }
    | some hunk =>
        match hunk.parts with
        | [] => { result := .error .panics, file := some [] }
        | part :: _ =>
            match fileContents part with
            | .error e => { result := .error e, file := some [] }
            | .ok contents => { result := .ok (), file := some contents }

end Bunx.Patch
