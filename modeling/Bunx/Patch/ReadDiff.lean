/-
Module: Bunx.Patch.ReadDiff
Purpose: The parser reads the text of a diff as its hunks.
Trusted boundary: none
Main exports: IsTextLine, Consumes, parseHunkHeaderLine_headerText, parsePatchFile_diffText
-/
import Mathlib.Data.List.TakeDrop
import Bunx.Patch.ApplyDiff

namespace Bunx.Patch

open Lib

theorem ok_bind {ε α β : Type} (a : α) (f : α → Except ε β) : (Except.ok a >>= f) = f a := rfl

/-! ### Lines of the file -/

/-- A line that the iterator gives back whole. -/
structure IsTextLine (line : Bytes) : Prop where
  noNewline : newline ∉ line
  short : line.length < 4294967296

theorem indexOfChar_append {c : UInt8} {line : Bytes} (absent : c ∉ line)
    (short : line.length < 4294967296) (rest : Bytes) :
    indexOfChar (line ++ c :: rest) c = some line.length := by
  have isIndex : (line ++ c :: rest).findIdx? (· == c) = some line.length := by
    rw [List.findIdx?_append, List.findIdx?_eq_none_iff.mpr, Option.none_or, List.findIdx?_cons,
      if_pos (beq_self_eq_true c)]
    · simp
    · intro d member
      exact beq_eq_false_iff_ne.mpr fun same => absent (same ▸ member)
  unfold indexOfChar
  rw [isIndex, Option.map_some, Nat.mod_eq_of_lt short]

theorem nextLine_ended {line : Bytes} (isLine : IsTextLine line) (rest : Bytes) :
    nextLine (line ++ newline :: rest) = (line, some rest) := by
  unfold nextLine
  rw [indexOfChar_append isLine.noNewline isLine.short]
  dsimp only
  rw [List.take_left, ← List.drop_drop, List.drop_left]
  rfl

theorem nextLine_last {line : Bytes} (noNewline : newline ∉ line) :
    nextLine line = (line, none) := by
  have none : indexOfChar line newline = none := by
    unfold indexOfChar
    rw [List.findIdx?_eq_none_iff.mpr]
    · rfl
    · intro d member
      exact beq_eq_false_iff_ne.mpr fun same => noNewline (same ▸ member)
  unfold nextLine
  rw [none]

/-- The parser takes the lines in one after the other. -/
inductive Consumes : LinesParser → List Bytes → LinesParser → Prop where
  | nil (p : LinesParser) : Consumes p [] p
  | cons {p q r : LinesParser} {line : Bytes} {lines : List Bytes}
      (first : p.step false line = .ok (q, false)) (later : Consumes q lines r) :
      Consumes p (line :: lines) r

theorem Consumes.append {p q r : LinesParser} {front back : List Bytes}
    (first : Consumes p front q) (later : Consumes q back r) : Consumes p (front ++ back) r := by
  induction first with
  | nil => exact later
  | cons step _ ih => exact .cons step (ih later)

theorem Consumes.single {p q : LinesParser} {line : Bytes}
    (step : p.step false line = .ok (q, false)) : Consumes p [line] q :=
  .cons step (.nil q)

section

variable {p q : LinesParser} {lines more : List Bytes}

theorem parseLoop_step {line rest : Bytes} (isLine : IsTextLine line)
    (step : p.step false line = .ok (q, false)) (fuel : Nat) :
    parseLoop false (fuel + 1) p (some (line ++ newline :: rest)) =
      parseLoop false fuel q (some rest) := by
  rw [parseLoop, nextLine_ended isLine]
  simp only [step]
  rfl

/-- Lines in front of others. -/
theorem parseLoop_consumes (consumes : Consumes p lines q)
    (areLines : ∀ line ∈ lines, IsTextLine line) (someMore : more ≠ []) (fuel : Nat) :
    parseLoop false (fuel + lines.length) p (some (joinWith newline (lines ++ more))) =
      parseLoop false fuel q (some (joinWith newline more)) := by
  induction consumes with
  | nil p => rfl
  | @cons _ _ _ line lines step _ ih =>
      rw [List.length_cons, ← Nat.add_assoc, List.cons_append,
        joinWith_cons (List.append_ne_nil_of_right_ne_nil lines someMore),
        parseLoop_step (areLines line List.mem_cons_self) step]
      exact ih fun l member => areLines l (List.mem_cons_of_mem line member)

theorem parseLoop_none (fuel : Nat) : parseLoop false fuel p none = .ok p := by
  cases fuel with
  | zero => rfl
  | succ fuel => rfl

/-- The last lines of the file. -/
theorem parseLoop_end (consumes : Consumes p lines q)
    (areLines : ∀ line ∈ lines, IsTextLine line) (nonempty : lines ≠ []) (fuel : Nat) :
    parseLoop false (fuel + lines.length) p (some (joinWith newline lines)) = .ok q := by
  induction consumes with
  | nil p => exact absurd rfl nonempty
  | @cons _ _ _ line lines step later ih =>
      have isLine := areLines line List.mem_cons_self
      rw [List.length_cons, ← Nat.add_assoc]
      by_cases last : lines = []
      · subst last
        rw [joinWith_single, parseLoop, nextLine_last isLine.noNewline]
        simp only [step]
        cases later with
        | nil => exact parseLoop_none _
      · rw [joinWith_cons last, parseLoop_step isLine step]
        exact ih (fun l member => areLines l (List.mem_cons_of_mem line member))
          last

/-- A line the parser goes back to. -/
theorem parseLoop_back {line : Bytes} (isLine : IsTextLine line)
    (step : p.step false line = .ok (q, true)) (fuel : Nat) :
    parseLoop false (fuel + 1) p (some (joinWith newline (line :: lines))) =
      parseLoop false fuel q (some (joinWith newline (line :: lines))) := by
  by_cases last : lines = []
  · subst last
    rw [joinWith_single, parseLoop, nextLine_last isLine.noNewline]
    simp only [step]
    rfl
  · rw [joinWith_cons last, parseLoop, nextLine_ended isLine]
    simp only [step]
    rfl

end

/-! ### Numbers and headers of hunks -/

theorem isDigit_iff {c : UInt8} : isDigit c = true ↔ 0x30 ≤ c.toNat ∧ c.toNat ≤ 0x39 := by
  unfold isDigit
  rw [Bool.and_eq_true, decide_eq_true_eq, decide_eq_true_eq]
  exact Iff.rfl

theorem decimal_isDigit {n : Nat} {c : UInt8} (member : c ∈ decimal n) : isDigit c = true :=
  isDigit_iff.mpr (decimal_digit member)

/-- What is no digit is none of a number's. -/
theorem decimal_ne {n : Nat} {c d : UInt8} (member : c ∈ decimal n) (noDigit : isDigit d = false) :
    c ≠ d := by
  rintro rfl
  rw [decimal_isDigit member] at noDigit
  cases noDigit

theorem digitLoop_decimal (n : Nat) : digitLoop 10 (decimal n) 0 = some n := by
  apply loop_decimal
  · exact fun acc => rfl
  · intro c rest acc low high
    have digit : isDigit c = true := isDigit_iff.mpr ⟨low, high⟩
    have notUnderscore : c ≠ 0x5f := by
      rintro rfl
      exact absurd digit (by decide)
    have value : digitValue c = some (c.toNat - 0x30) := if_pos digit
    rw [digitLoop, if_neg notUnderscore, value]
    exact if_neg (by omega)

theorem parseInt_decimal {n : Nat} (fits : n < 4294967296) : parseInt (decimal n) 10 = some n := by
  obtain ⟨c, rest, isDecimal⟩ := List.exists_cons_of_ne_nil (decimal_ne_nil n)
  have first : c ∈ decimal n := isDecimal ▸ List.mem_cons_self
  have notPlus := decimal_ne first (d := 0x2b) (by decide)
  have notMinus := decimal_ne first (d := 0x2d) (by decide)
  have notHead : (decimal n).head? ≠ some 0x5f := fun isHead =>
    decimal_ne (List.mem_of_head? isHead) (by decide) rfl
  have notLast : (decimal n).getLast? ≠ some 0x5f := fun isLast =>
    decimal_ne (List.mem_of_getLast? isLast) (by decide) rfl
  have value : parseWithSign (decimal n) 10 = some n := by
    unfold parseWithSign
    rw [if_neg, digitLoop_decimal]
    rintro (none | head | last)
    · exact decimal_ne_nil n none
    · exact notHead head
    · exact notLast last
  rw [isDecimal] at value ⊢
  unfold parseInt
  dsimp only
  rw [if_neg (not_or.mpr ⟨notPlus, notMinus⟩), value]
  dsimp only
  rw [decide_eq_false notMinus, if_neg Bool.false_ne_true, if_pos fits]

theorem digitsUntil_decimal {ends : UInt8 → Bool} {n : Nat} {c : UInt8} (isEnd : ends c = true)
    (noEnd : ∀ d, isDigit d = true → ends d = false) (rest : Bytes) :
    digitsUntil ends (decimal n ++ c :: rest) = .ok (decimal n, c :: rest) := by
  have all : ∀ d ∈ decimal n, (!ends d) = true := by
    intro d member
    rw [noEnd d (decimal_isDigit member)]
    rfl
  unfold digitsUntil
  rw [List.span_eq_takeWhile_dropWhile, List.takeWhile_append_of_pos all,
    List.dropWhile_append_of_pos all, List.takeWhile_cons_of_neg (by simp [isEnd]),
    List.dropWhile_cons_of_neg (by simp [isEnd]), List.append_nil]
  dsimp only
  rw [if_pos]
  rw [List.all_eq_true]
  exact fun d => decimal_isDigit

/-- A range, with its length or without, in front of a blank. -/
theorem parseHunkHeaderLineImpl_rangeText {start len : Nat} (fitsStart : start < 4294967296)
    (fitsLen : len < 4294967296) (c : UInt8) (rest : Bytes) :
    parseHunkHeaderLineImpl (rangeText start len ++ 0x20 :: c :: rest) =
      .ok { lineNr := max 1 start, lineCount := len, rest := 0x20 :: c :: rest } := by
  have noEnd (d : UInt8) (digit : isDigit d = true) : (d == 0x2c || d == 0x20) = false := by
    rw [Bool.or_eq_false_iff, beq_eq_false_iff_ne, beq_eq_false_iff_ne]
    constructor
    · rintro rfl
      exact absurd digit (by decide)
    · rintro rfl
      exact absurd digit (by decide)
  have noBlank (d : UInt8) (digit : isDigit d = true) : (d == 0x20) = false := by
    have none := noEnd d digit
    rw [Bool.or_eq_false_iff] at none
    exact none.2
  unfold parseHunkHeaderLineImpl rangeText
  by_cases one : len = 1
  · subst one
    have isOne : parseInt [0x31] 10 = some 1 := by decide
    have two : ¬(0x20 :: c :: rest).length < 2 := by simp
    have noComma : decide ((0x20 :: c :: rest).head? = some (0x2c : UInt8)) = false := rfl
    rw [if_pos rfl, List.append_nil, digitsUntil_decimal (by rfl) noEnd, ok_bind]
    dsimp only
    rw [if_neg two, noComma, if_neg Bool.false_ne_true, ok_bind]
    dsimp only
    rw [parseInt_decimal fitsStart, isOne]
  · have two : ¬(0x2c :: (decimal len ++ 0x20 :: c :: rest)).length < 2 := by
      rw [List.length_cons, List.length_append, List.length_cons]
      omega
    have comma : decide ((0x2c :: (decimal len ++ 0x20 :: c :: rest)).head? =
        some (0x2c : UInt8)) = true := rfl
    rw [if_neg one, List.append_assoc, List.cons_append, digitsUntil_decimal (by rfl) noEnd, ok_bind]
    dsimp only
    rw [if_neg two, comma, if_pos rfl, List.drop_one, List.tail_cons,
      digitsUntil_decimal (by rfl) noBlank, ok_bind]
    dsimp only
    rw [parseInt_decimal fitsStart, parseInt_decimal fitsLen]

theorem trimLeft_cons {c : UInt8} (notBlank : isWhitespace c = false) (rest : Bytes) :
    trimLeft (c :: rest) = c :: rest :=
  List.dropWhile_cons_of_neg (by simp [notBlank])

/-- Trimming ends at the last byte that is not blank. -/
theorem trimRight_append {c : UInt8} (notBlank : isWhitespace c = false) (front back : Bytes) :
    trimRight (front ++ c :: back) = front ++ c :: trimRight back := by
  unfold trimRight
  rw [List.reverse_append, List.reverse_cons, List.append_assoc, List.singleton_append,
    List.dropWhile_append]
  split
  · rename_i none
    rw [List.isEmpty_iff.mp none, List.dropWhile_cons_of_neg (by simp [notBlank])]
    simp
  · simp

/-- The four numbers fit into 32 bits. -/
structure DiffHunk.Fits (hunk : DiffHunk) : Prop where
  oldStart : hunk.oldStart < 4294967296
  oldLen : hunk.oldLen < 4294967296
  newStart : hunk.newStart < 4294967296
  newLen : hunk.newLen < 4294967296

theorem parseHunkHeaderLine_headerText {hunk : DiffHunk} (fits : hunk.Fits) :
    parseHunkHeaderLine (headerText hunk) = .ok { header := hunk.parsed.header } := by
  have isText : headerText hunk =
      0x40 :: (0x40 :: 0x20 :: 0x2d :: rangeText hunk.oldStart hunk.oldLen ++ 0x20 :: 0x2b ::
        (rangeText hunk.newStart hunk.newLen ++ [0x20, 0x40]) ++ 0x40 :: hunk.heading) := by
    unfold headerText
    have isAt : ascii "@@ -" = [0x40, 0x40, 0x20, 0x2d] := by decide
    have isPlus : ascii " +" = [0x20, 0x2b] := by decide
    have isEnd : ascii " @@" = [0x20, 0x40, 0x40] := by decide
    rw [isAt, isPlus, isEnd]
    simp
  have isTrimmed : trim (headerText hunk) =
      [0x40, 0x40, 0x20, 0x2d] ++ (rangeText hunk.oldStart hunk.oldLen ++ 0x20 :: 0x2b ::
        (rangeText hunk.newStart hunk.newLen ++ 0x20 :: 0x40 :: 0x40 ::
          trimRight hunk.heading)) := by
    unfold trim
    rw [isText, trimLeft_cons (by decide), ← List.cons_append, trimRight_append (by decide)]
    simp
  have isAt : ascii "@@ -" = [0x40, 0x40, 0x20, 0x2d] := by decide
  have isEnd : ascii " @@" = [0x20, 0x40, 0x40] := by decide
  unfold parseHunkHeaderLine
  rw [isTrimmed]
  dsimp only
  rw [if_neg, List.drop_left' (by rfl)]
  · rw [parseHunkHeaderLineImpl_rangeText fits.oldStart fits.oldLen, ok_bind]
    dsimp only
    rw [if_neg (by simp), List.drop_succ_cons, List.drop_one, List.tail_cons,
      parseHunkHeaderLineImpl_rangeText fits.newStart fits.newLen, ok_bind]
    dsimp only
    rw [isEnd]
    rfl
  · rintro (notAt | short)
    · exact notAt (by rw [isAt]; rfl)
    · simp only [List.length_append, List.length_cons, List.length_nil] at short
      omega

/-! ### The lines before the hunks -/

/-- There is a `b` of ` b/` to be found. -/
theorem findBPart_some {rest : Bytes} {k : Nat} (small : rest.length < 4294967296)
    (isB : rest[k]? = some 0x62) (positive : 0 < k) (isBlank : rest[k - 1]? = some 0x20)
    (isSlash : rest[k + 1]? = some 0x2f) (fuel i : Nat) (below : i ≤ k)
    (enough : k < i + fuel) : ∃ found, findBPart rest fuel i = some found := by
  induction fuel generalizing i with
  | zero => omega
  | succ fuel ih =>
      have inside := (List.getElem?_eq_some_iff.mp isB).1
      have after := (List.getElem?_eq_some_iff.mp isSlash).1
      have isThere : (rest.drop i)[k - i]? = some 0x62 := by
        rw [List.getElem?_drop, Nat.add_sub_of_le below]
        exact isB
      cases isFind : (rest.drop i).findIdx? (· == 0x62) with
      | none =>
          have absent := List.findIdx?_eq_none_iff.mp isFind 0x62 (List.mem_of_getElem? isThere)
          cases absent
      | some s =>
          have sInside : s ≤ k - i := by
            by_contra later
            obtain ⟨_, _, none⟩ := List.findIdx?_eq_some_iff_getElem.mp isFind
            have here := (List.getElem?_eq_some_iff.mp isThere).2
            have notB := none (k - i) (by omega)
            rw [here] at notB
            exact notB rfl
          have isIndex : indexOfChar (rest.drop i) 0x62 = some s := by
            unfold indexOfChar
            rw [isFind, Option.map_some, Nat.mod_eq_of_lt (by omega)]
          unfold findBPart
          rw [isIndex, Option.bind_eq_bind, Option.bind_some]
          dsimp only
          split
          · exact ⟨_, rfl⟩
          · rename_i notHere
            have notK : i + s ≠ k := by
              rintro rfl
              exact notHere ⟨positive, isBlank, after, isSlash⟩
            exact ih (i + s + 1) (by omega) (by omega)

/-- The paths of the first line are found, whatever they are taken to be. -/
theorem parseDiffLinePaths_some {path : Bytes}
    (short : (ascii "diff --git a/" ++ path ++ ascii " b/" ++ path).length < 4294967296) :
    ∃ fromPath toPath,
      parseDiffLinePaths (ascii "diff --git a/" ++ path ++ ascii " b/" ++ path) =
        some (fromPath, toPath) := by
  have isRest : (ascii "diff --git a/" ++ path ++ ascii " b/" ++ path).drop
      (ascii "diff --git a/").length = path ++ 0x20 :: 0x62 :: 0x2f :: path := by
    rw [List.append_assoc, List.append_assoc, List.drop_left]
    rfl
  have starts : (ascii "diff --git a/").isPrefixOf
      (ascii "diff --git a/" ++ path ++ ascii " b/" ++ path) = true := by
    rw [List.isPrefixOf_iff_prefix, List.append_assoc, List.append_assoc]
    exact List.prefix_append _ _
  have small : (path ++ 0x20 :: 0x62 :: 0x2f :: path).length < 4294967296 := by
    rw [← isRest, List.length_drop]
    omega
  have at_ (j : Nat) : (path ++ 0x20 :: 0x62 :: 0x2f :: path)[path.length + j]? =
      ((0x20 : UInt8) :: 0x62 :: 0x2f :: path)[j]? := by
    rw [List.getElem?_append_right (Nat.le_add_right _ _), Nat.add_sub_cancel_left]
  obtain ⟨found, isFound⟩ := findBPart_some small (at_ 1) (Nat.succ_pos _) (at_ 0) (at_ 2)
    ((path ++ 0x20 :: 0x62 :: 0x2f :: path).length + 1) 0 (Nat.zero_le _)
    (by rw [List.length_append]; simp)
  refine ⟨(path ++ 0x20 :: 0x62 :: 0x2f :: path).take (found - 1),
    trimRight ((path ++ 0x20 :: 0x62 :: 0x2f :: path).drop (found + 2)), ?_⟩
  unfold parseDiffLinePaths
  dsimp only
  rw [starts, isRest, isFound]
  simp

/-- A path that trimming keeps. -/
structure IsPath (path : Bytes) : Prop where
  nonempty : path ≠ []
  noNewline : newline ∉ path
  trimmed : trim path = path

section

variable (file : FileDeets) (path index : Bytes)

/-- A header line whose text starts with a key, in a parser that only has a file. -/
theorem step_header {q : LinesParser} {line : Bytes} (notHunk : (ascii "@@").isPrefixOf line = false)
    (isLine : LinesParser.headerLine { currentFilePatch := file } line = .ok q) :
    LinesParser.step false { currentFilePatch := file } line = .ok (q, false) := by
  unfold LinesParser.step
  dsimp only
  rw [notHunk, if_neg Bool.false_ne_true, isLine]
  rfl

theorem step_diffLine {fromPath toPath : Bytes}
    (isPaths : parseDiffLinePaths (ascii "diff --git a/" ++ path ++ ascii " b/" ++ path) =
      some (fromPath, toPath)) :
    LinesParser.step false {} (ascii "diff --git a/" ++ path ++ ascii " b/" ++ path) =
      .ok ({ currentFilePatch :=
        { diffLineFromPath := some fromPath, diffLineToPath := some toPath } }, false) := by
  apply step_header
  · rfl
  · have isKey :
        (ascii "diff --git ").isPrefixOf (ascii "diff --git a/" ++ path ++ ascii " b/" ++ path) =
          true := rfl
    unfold LinesParser.headerLine
    rw [if_pos isKey, isPaths]
    rfl

theorem step_index : ∃ before after,
    LinesParser.step false { currentFilePatch := file } (ascii "index " ++ index) =
      .ok ({ currentFilePatch :=
        { file with beforeHash := before, afterHash := after } }, false) := by
  cases isHashes : parseDiffHashes ((ascii "index " ++ index).drop (ascii "index ").length) with
  | none =>
      have isKey : LinesParser.headerLine { currentFilePatch := file } (ascii "index " ++ index) =
          .ok { currentFilePatch := file } := by
        unfold LinesParser.headerLine
        rw [isHashes]
        rfl
      exact ⟨file.beforeHash, file.afterHash, step_header file rfl isKey⟩
  | some hashes =>
      have isKey : LinesParser.headerLine { currentFilePatch := file } (ascii "index " ++ index) =
          .ok { currentFilePatch :=
            { file with beforeHash := some hashes.1, afterHash := some hashes.2 } } := by
        unfold LinesParser.headerLine
        rw [isHashes]
        rfl
      exact ⟨some hashes.1, some hashes.2, step_header file rfl isKey⟩

theorem step_from :
    LinesParser.step false { currentFilePatch := file } (ascii "--- a/" ++ path) =
      .ok ({ currentFilePatch := { file with fromPath := some (trim path) } }, false) :=
  step_header file rfl rfl

theorem step_to :
    LinesParser.step false { currentFilePatch := file } (ascii "+++ b/" ++ path) =
      .ok ({ currentFilePatch := { file with toPath := some (trim path) } }, false) :=
  step_header file rfl rfl

end

/-- What the lines before the hunks say of the file. -/
structure Describes (path : Bytes) (file : FileDeets) : Prop where
  toPath : file.toPath = some path
  oldMode : file.oldMode = none
  deletedFileMode : file.deletedFileMode = none
  newFileMode : file.newFileMode = none
  renameFrom : file.renameFrom = none
  noHunks : file.hunks = []

theorem consumes_fileHeader {path : Bytes} (index : Bytes) (isPath : IsPath path)
    (short : (ascii "diff --git a/" ++ path ++ ascii " b/" ++ path).length < 4294967296) :
    ∃ file, Describes path file ∧
      Consumes {} (fileHeader path index) { currentFilePatch := file } := by
  obtain ⟨fromPath, toPath, isPaths⟩ := parseDiffLinePaths_some short
  obtain ⟨before, after, isIndex⟩ :=
    step_index { diffLineFromPath := some fromPath, diffLineToPath := some toPath } index
  refine ⟨_, ?_, .cons (step_diffLine path isPaths) (.cons isIndex
    (.cons (step_from _ path) (.single (step_to _ path))))⟩
  exact ⟨congrArg some isPath.trimmed, rfl, rfl, rfl, rfl, rfl⟩

/-! ### Hunks -/

section

variable (file : FileDeets) (done : List Hunk)

/-- Between hunks. -/
def between : LinesParser :=
  { currentFilePatch := { file with hunks := done }, state := .parsingHunks }

/-- In a hunk: its parts so far and the one that is read. -/
def inHunk (header : Header) (parts : List PatchMutationPart)
    (current : Option PatchMutationPart) : LinesParser :=
  { currentFilePatch := { file with hunks := done }
    state := .parsingHunks
    currentHunk := some { header := header, parts := parts }
    currentHunkMutationPart := current }

theorem commitHunk_inHunk (header : Header) (parts : List PatchMutationPart)
    (current : Option PatchMutationPart) :
    (inHunk file done header parts current).commitHunk =
      between file (done ++ [{ header := header, parts := parts ++ current.toList }]) := by
  cases current with
  | none =>
      rw [Option.toList_none, List.append_nil]
      rfl
  | some part => rfl

variable {file done} {header : Header} {parts : List PatchMutationPart}

theorem step_partLine (current : Option PatchMutationPart) (ty : PartType) (text : Bytes) :
    (inHunk file done header parts current).step false (mark ty :: text) =
      (do
        let p ← (inHunk file done header parts current).partLine ty (mark ty :: text)
        .ok (p, false)) := by
  cases ty with
  | context => rfl
  | insertion => rfl
  | deletion => rfl

/-- The first line of a run starts a part. -/
theorem step_firstLine {current : Option PatchMutationPart} {ty : PartType}
    (changes : ∀ part ∈ current, part.ty ≠ ty) (text : Bytes) :
    (inHunk file done header parts current).step false (mark ty :: text) =
      .ok (inHunk file done header (parts ++ current.toList)
        (some { ty := ty, lines := [text] }), false) := by
  rw [step_partLine]
  cases current with
  | none =>
      rw [Option.toList_none, List.append_nil]
      rfl
  | some part =>
      have notSame := changes part rfl
      unfold LinesParser.partLine inHunk
      dsimp only
      rw [if_pos notSame]
      rfl

theorem step_nextLine (part : PatchMutationPart) (text : Bytes) :
    (inHunk file done header parts (some part)).step false (mark part.ty :: text) =
      .ok (inHunk file done header parts
        (some { part with lines := part.lines ++ [text] }), false) := by
  rw [step_partLine]
  unfold LinesParser.partLine inHunk
  dsimp only
  rw [if_neg (not_not_intro rfl)]
  rfl

theorem step_pragma (part : PatchMutationPart) :
    (inHunk file done header parts (some part)).step false
        (ascii "\\ No newline at end of file") =
      .ok (inHunk file done header parts
        (some { part with noNewlineAtEndOfFile := true }), false) := rfl

theorem consumes_line (line : Line) (part : PatchMutationPart) :
    Consumes (inHunk file done header parts (some part)) (lineText part.ty line)
      (inHunk file done header parts
        (some
          { ty := part.ty
            lines := part.lines ++ [line.text]
            noNewlineAtEndOfFile := part.noNewlineAtEndOfFile || !line.ended })) := by
  unfold lineText
  cases line.ended with
  | true =>
      rw [if_pos rfl, Bool.not_true, Bool.or_false]
      exact .single (step_nextLine part line.text)
  | false =>
      rw [if_neg Bool.false_ne_true, Bool.not_false, Bool.or_true]
      exact .cons (step_nextLine part line.text) (.single (step_pragma _))

theorem consumes_firstLine {current : Option PatchMutationPart} {ty : PartType}
    (changes : ∀ part ∈ current, part.ty ≠ ty) (line : Line) :
    Consumes (inHunk file done header parts current) (lineText ty line)
      (inHunk file done header (parts ++ current.toList)
        (some { ty := ty, lines := [line.text], noNewlineAtEndOfFile := !line.ended })) := by
  unfold lineText
  cases line.ended with
  | true =>
      rw [if_pos rfl]
      exact .single (step_firstLine changes line.text)
  | false =>
      rw [if_neg Bool.false_ne_true]
      exact .cons (step_firstLine changes line.text) (.single (step_pragma _))

/-- The lines behind the first of a run go on with its part. -/
theorem consumes_lines (lines : List Line) (part : PatchMutationPart) :
    Consumes (inHunk file done header parts (some part)) (lines.flatMap (lineText part.ty))
      (inHunk file done header parts
        (some
          { ty := part.ty
            lines := part.lines ++ lines.map Line.text
            noNewlineAtEndOfFile :=
              part.noNewlineAtEndOfFile || lines.any fun line => !line.ended })) := by
  induction lines generalizing part with
  | nil =>
      rw [List.map_nil, List.append_nil, List.any_nil, Bool.or_false]
      exact .nil _
  | cons line lines ih =>
      have later := ih
        { ty := part.ty
          lines := part.lines ++ [line.text]
          noNewlineAtEndOfFile := part.noNewlineAtEndOfFile || !line.ended }
      dsimp only at later
      rw [List.append_assoc, List.singleton_append, Bool.or_assoc] at later
      exact (consumes_line line part).append later

/-- A run is read as one part. -/
theorem consumes_run {current : Option PatchMutationPart} {run : Run}
    (changes : ∀ part ∈ current, part.ty ≠ run.ty) (nonempty : run.lines ≠ []) :
    Consumes (inHunk file done header parts current) (runText run)
      (inHunk file done header (parts ++ current.toList) (some run.part)) := by
  obtain ⟨ty, lines⟩ := run
  cases lines with
  | nil => exact absurd rfl nonempty
  | cons line lines =>
      exact (consumes_firstLine changes line).append (consumes_lines lines
        { ty := ty, lines := [line.text], noNewlineAtEndOfFile := !line.ended })

theorem consumes_body (header : Header) (parts : List PatchMutationPart) {body : List Run}
    (isBody : IsBody body) {current : Option PatchMutationPart}
    (changes : ∀ part ∈ current, ∀ run ∈ body.head?, part.ty ≠ run.ty) :
    ∃ front last,
      Consumes (inHunk file done header parts current) (body.flatMap runText)
        (inHunk file done header front last) ∧
      front ++ last.toList = parts ++ current.toList ++ body.map Run.part := by
  induction body generalizing parts current with
  | nil => exact ⟨parts, current, .nil _, (List.append_nil _).symm⟩
  | cons run body ih =>
      have first : Consumes (inHunk file done header parts current) (runText run)
          (inHunk file done header (parts ++ current.toList) (some run.part)) :=
        consumes_run (fun part member => changes part member run rfl)
          (isBody.nonempty run List.mem_cons_self)
      have differs : ∀ part ∈ some run.part, ∀ next ∈ body.head?, part.ty ≠ next.ty := by
        intro part isPart next isNext
        obtain rfl := Option.some.inj isPart
        cases body with
        | nil => cases isNext
        | cons second body =>
            obtain rfl := Option.some.inj isNext
            exact (List.isChain_cons_cons.mp isBody.ordered).1.1
      obtain ⟨front, last, later, whole⟩ :=
        ih (parts ++ current.toList) isBody.tail differs
      refine ⟨front, last, first.append later, ?_⟩
      rw [whole, Option.toList_some, List.append_assoc, List.singleton_append]
      rfl

theorem ascii_hunk : ascii "@@ -" = 0x40 :: [0x40, 0x20, 0x2d] := by decide

theorem headerText_cons (hunk : DiffHunk) : ∃ rest, headerText hunk = 0x40 :: rest := by
  unfold headerText
  rw [ascii_hunk]
  exact ⟨_, rfl⟩

/-- A hunk is read behind the ones before it. -/
theorem consumes_hunk {hunk : DiffHunk} (fits : hunk.Fits) (isBody : IsBody hunk.body)
    {p : LinesParser} (isBetween : p.commitHunk = between file done)
    (inHunks : p.state = .parsingHunks) :
    ∃ q, Consumes p (hunkText hunk) q ∧ q.commitHunk = between file (done ++ [hunk.parsed]) ∧
      q.state = .parsingHunks := by
  have headerStep : p.step false (headerText hunk) =
      .ok (inHunk file done hunk.parsed.header [] none, false) := by
    obtain ⟨rest, isText⟩ := headerText_cons hunk
    have isType : LinesParser.hunkLineType (headerText hunk) = some .header := by
      rw [isText]
      rfl
    unfold LinesParser.step
    rw [inHunks]
    dsimp only
    rw [if_neg (fun both => Bool.false_ne_true both.1), isType]
    unfold LinesParser.hunkLine
    dsimp only
    rw [parseHunkHeaderLine_headerText fits, isBetween]
    rfl
  have noPart : ∀ part ∈ (none : Option PatchMutationPart), ∀ run ∈ hunk.body.head?,
      part.ty ≠ run.ty := by
    intro part member
    cases member
  obtain ⟨front, last, body, whole⟩ := consumes_body hunk.parsed.header [] isBody noPart
  refine ⟨inHunk file done hunk.parsed.header front last, .cons headerStep body, ?_, rfl⟩
  rw [commitHunk_inHunk, whole]
  rfl

theorem consumes_hunks (hunks : List DiffHunk) (fits : ∀ hunk ∈ hunks, hunk.Fits)
    (areBodies : ∀ hunk ∈ hunks, IsBody hunk.body) {p : LinesParser}
    (isBetween : p.commitHunk = between file done) (inHunks : p.state = .parsingHunks) :
    ∃ q, Consumes p (hunks.flatMap hunkText) q ∧
      q.commitHunk = between file (done ++ hunks.map DiffHunk.parsed) := by
  induction hunks generalizing done p with
  | nil => exact ⟨p, .nil p, by rw [List.map_nil, List.append_nil]; exact isBetween⟩
  | cons hunk hunks ih =>
      obtain ⟨q, first, isNext, stillInHunks⟩ := consumes_hunk (fits hunk List.mem_cons_self)
        (areBodies hunk List.mem_cons_self) isBetween inHunks
      obtain ⟨r, later, isLast⟩ := ih
        (fun h member => fits h (List.mem_cons_of_mem hunk member))
        (fun h member => areBodies h (List.mem_cons_of_mem hunk member)) isNext stillInHunks
      refine ⟨r, first.append later, ?_⟩
      rw [isLast, List.map_cons, List.append_assoc, List.singleton_append]

end

/-! ### The whole file -/

theorem sum_map_length {body : List Run} (lengthOf : PatchMutationPart → Nat)
    (side : Run → List Line) (same : ∀ run, lengthOf run.part = (side run).length) :
    ((body.map Run.part).map lengthOf).sum = (body.flatMap side).length := by
  induction body with
  | nil => rfl
  | cons run body ih =>
      rw [List.map_cons, List.map_cons, List.sum_cons, ih, same,
        List.flatMap_cons, List.length_append]

/-- Right counts pass the check. -/
theorem verifyIntegrity_parsed {hunk : DiffHunk} (oldLen : hunk.oldLen = (oldSide hunk.body).length)
    (newLen : hunk.newLen = (newSide hunk.body).length) : hunk.parsed.verifyIntegrity = true := by
  have original : hunk.parsed.originalLength = (oldSide hunk.body).length := by
    apply sum_map_length
    intro run
    unfold Run.part
    dsimp only
    split
    · rfl
    · exact List.length_map ..
  have patched : hunk.parsed.patchedLength = (newSide hunk.body).length := by
    apply sum_map_length
    intro run
    unfold Run.part
    dsimp only
    split
    · rfl
    · exact List.length_map ..
  unfold Hunk.verifyIntegrity
  rw [original, patched]
  exact decide_eq_true ⟨oldLen.symm, newLen.symm⟩

/-- A file with hunks and no more than a path is one change of its text. -/
theorem parts_of_describes {path : Bytes} {file : FileDeets} {hunks : List Hunk}
    (describes : Describes path file) (nonempty : path ≠ []) (someHunks : hunks ≠ []) :
    ∃ before after, ({ file with hunks := hunks }.nullifyEmptyStrings).parts =
      .ok [.filePatch path hunks before after] := by
  have keeps : nullify (some path) = some path :=
    if_neg fun empty => nonempty (Option.some.inj empty)
  refine ⟨nullify file.beforeHash, nullify file.afterHash, ?_⟩
  unfold FileDeets.parts FileDeets.firstPart FileDeets.kind FileDeets.nullifyEmptyStrings
  dsimp only
  rw [describes.renameFrom, describes.deletedFileMode, describes.newFileMode, describes.toPath,
    describes.oldMode, keeps]
  have noneGiven : isGiven (nullify none) = false := rfl
  rw [noneGiven, if_neg Bool.false_ne_true, if_neg Bool.false_ne_true, if_neg Bool.false_ne_true,
    if_pos someHunks]
  dsimp only
  rw [ok_bind]
  dsimp only
  rw [Option.some_or]
  dsimp only
  rw [if_pos someHunks]
  rfl

/-- What the parser needs of a hunk. -/
structure DiffHunk.Readable (hunk : DiffHunk) : Prop where
  fits : hunk.Fits
  isBody : IsBody hunk.body
  oldLen : hunk.oldLen = (oldSide hunk.body).length
  newLen : hunk.newLen = (newSide hunk.body).length

section

variable {path index : Bytes} {first : DiffHunk} {more : List DiffHunk}

/-- The loop over the lines of the diff. -/
theorem parseLoop_diff (isPath : IsPath path)
    (areLines : ∀ line ∈ fileHeader path index ++ (first :: more).flatMap hunkText,
      IsTextLine line)
    (readable : ∀ hunk ∈ first :: more, hunk.Readable) (fuel : Nat) :
    ∃ file q, Describes path file ∧
      q.commitHunk = between file ((first :: more).map DiffHunk.parsed) ∧
      parseLoop false
          (fuel + ((first :: more).flatMap hunkText).length + 1 + (fileHeader path index).length) {}
          (some (joinWith newline
            (fileHeader path index ++ (first :: more).flatMap hunkText))) = .ok q := by
  have inHeader : ∀ line ∈ fileHeader path index, IsTextLine line := fun line member =>
    areLines line (List.mem_append_left _ member)
  have inHunks : ∀ line ∈ (first :: more).flatMap hunkText, IsTextLine line := fun line member =>
    areLines line (List.mem_append_right _ member)
  have someLines : (first :: more).flatMap hunkText ≠ [] := by
    rw [List.flatMap_cons, hunkText]
    exact List.cons_ne_nil _ _
  have isFirst : (first :: more).flatMap hunkText =
      headerText first :: (first.body.flatMap runText ++ more.flatMap hunkText) := by
    rw [List.flatMap_cons, hunkText, List.cons_append]
  obtain ⟨file, describes, header⟩ :=
    consumes_fileHeader index isPath (inHeader _ List.mem_cons_self).short
  have isBetween : (between file []).commitHunk = between file [] := rfl
  obtain ⟨q, hunks, isLast⟩ := consumes_hunks (first :: more)
    (fun hunk member => (readable hunk member).fits)
    (fun hunk member => (readable hunk member).isBody) isBetween rfl
  have back : LinesParser.step false { currentFilePatch := file } (headerText first) =
      .ok (between file [], true) := by
    have starts : (ascii "@@").isPrefixOf (headerText first) = true := by
      unfold headerText
      rw [ascii_hunk]
      rfl
    unfold LinesParser.step
    dsimp only
    rw [if_pos starts]
    rfl
  refine ⟨file, q, describes, isLast, ?_⟩
  rw [parseLoop_consumes header inHeader someLines, isFirst,
    parseLoop_back (inHunks _ (by rw [isFirst]; exact List.mem_cons_self)) back, ← isFirst]
  exact parseLoop_end hunks inHunks someLines fuel

/-- The text of a diff is read as one change of the text of the file, by its hunks. -/
theorem parsePatchFile_diffText (isPath : IsPath path)
    (areLines : ∀ line ∈ diffLines path index (first :: more), IsTextLine line)
    (readable : ∀ hunk ∈ first :: more, hunk.Readable) :
    ∃ before after, parsePatchFile (diffText path index (first :: more)) =
      .ok [.filePatch path ((first :: more).map DiffHunk.parsed) before after] := by
  have isLines : diffLines path index (first :: more) =
      fileHeader path index ++ (first :: more).flatMap hunkText :=
    if_neg (List.cons_ne_nil _ _)
  rw [isLines] at areLines
  set lines := fileHeader path index ++ (first :: more).flatMap hunkText with isAll
  have someLines : lines ≠ [] := List.append_ne_nil_of_left_ne_nil (List.cons_ne_nil _ _) _
  have isText : diffText path index (first :: more) = joinWith newline lines ++ [newline] := by
    unfold diffText
    rw [isLines, joinWith_concat_sep someLines]
  have written : joinWith newline lines ≠ [] := by
    rw [isAll, fileHeader, List.cons_append, joinWith_cons
      (List.append_ne_nil_of_left_ne_nil (List.cons_ne_nil _ _) _)]
    exact List.append_ne_nil_of_right_ne_nil _ (List.cons_ne_nil _ _)
  -- the lines are fewer than the bytes
  have few : lines.length ≤ (joinWith newline lines).length + 1 := by
    have separators := count_joinWith fun line member => (areLines line member).noNewline
    have inside : (joinWith newline lines).count newline ≤ (joinWith newline lines).length :=
      List.count_le_length
    omega
  obtain ⟨fuel, isFuel⟩ : ∃ fuel, 2 * ((joinWith newline lines).length + 1) =
      fuel + ((first :: more).flatMap hunkText).length + 1 + (fileHeader path index).length := by
    have both : lines.length =
        (fileHeader path index).length + ((first :: more).flatMap hunkText).length :=
      List.length_append
    have header : (fileHeader path index).length = 4 := rfl
    refine ⟨2 * ((joinWith newline lines).length + 1) -
      (((first :: more).flatMap hunkText).length + 1 + (fileHeader path index).length), ?_⟩
    omega
  obtain ⟨file, q, describes, isLast, ran⟩ := parseLoop_diff isPath areLines readable fuel
  have someHunks : (first :: more).map DiffHunk.parsed ≠ [] := List.cons_ne_nil _ _
  obtain ⟨before, after, isParts⟩ := parts_of_describes describes isPath.nonempty someHunks
  have isResult : q.commitFilePatch.result =
      [{ file with hunks := (first :: more).map DiffHunk.parsed }.nullifyEmptyStrings] := by
    unfold LinesParser.commitFilePatch
    dsimp only
    rw [isLast]
    rfl
  have intact : ((first :: more).map DiffHunk.parsed).all Hunk.verifyIntegrity = true := by
    rw [List.all_eq_true]
    intro hunk member
    obtain ⟨diffHunk, isHunk, rfl⟩ := List.mem_map.mp member
    exact verifyIntegrity_parsed (readable diffHunk isHunk).oldLen (readable diffHunk isHunk).newLen
  refine ⟨before, after, ?_⟩
  have isParse : parse false (diffText path index (first :: more)) =
      .ok [{ file with hunks := (first :: more).map DiffHunk.parsed }.nullifyEmptyStrings] := by
    unfold parse
    rw [isText, List.getLast?_concat, if_pos rfl, List.dropLast_concat]
    dsimp only
    rw [if_neg written, isFuel, isAll, ran, ok_bind, isResult, List.all_cons, List.all_nil,
      Bool.and_true]
    exact if_pos intact
  unfold parsePatchFile
  rw [isParse]
  dsimp only
  unfold patchFileSecondPass
  rw [isParts, ok_bind]
  rfl

end

end Bunx.Patch
