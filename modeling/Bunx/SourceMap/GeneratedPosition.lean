/-
Module: Bunx.SourceMap.GeneratedPosition
Purpose: The generated line and column that the source map of a printed text has got to, against
  the line and the column in which the text ends.
Trusted boundary: texts of less than 2^31 bytes, so that no line or column overflows
Main exports: NewBuilder, NewBuilder.updateGeneratedLineAndColumn, Printed, returnsBefore, lastLine,
  printed_place, advance_place, generated_position, crlf_printed_at_once
-/
import Bunx.SourceMap.Builder
import Bunx.SourceMap.OriginalPosition

namespace Bunx.SourceMap

open TextOffset Bunx.Lib.Utf8

/-! ### The builder -/

/-- The source map is what has been called on it. -/
structure NewBuilder where
  sourceMap : List Call
  prevState : SourceMapState
  lastGeneratedUpdate : Nat
  generatedColumn : Nat
  hasPrevState : Bool
  lineStartsWithMapping : Bool
  coverLinesWithoutMappings : Bool
deriving DecidableEq

namespace NewBuilder

def start (coverLinesWithoutMappings : Bool) : NewBuilder :=
  { sourceMap := [], prevState := State.zero, lastGeneratedUpdate := 0, generatedColumn := 0
    hasPrevState := false, lineStartsWithMapping := false, coverLinesWithoutMappings }

def appendMapping (b : NewBuilder) (current : SourceMapState) : NewBuilder :=
  { b with
    sourceMap := b.sourceMap ++ [.mapping current]
    prevState := current
    hasPrevState := true }

/-- The mapping of the previous state, at the start of its line. -/
def lineStart (b : NewBuilder) : SourceMapState := { b.prevState with generatedColumn := 0 }

def needsMapping (b : NewBuilder) : Bool :=
  b.coverLinesWithoutMappings && !b.lineStartsWithMapping && b.hasPrevState

/-- The next line begins. A line that has no mapping gets one at its start. -/
def appendLineSeparator (b : NewBuilder) (needsMapping : Bool) : NewBuilder :=
  let b := if needsMapping then b.appendMapping b.lineStart else b
  { b with
    sourceMap := b.sourceMap ++ [.lineSeparator]
    prevState :=
      { b.prevState with
        generatedLine := b.prevState.generatedLine + 1
        generatedColumn := 0 }
    generatedColumn := 0
    lineStartsWithMapping := false }

def addColumns (b : NewBuilder) (n : Nat) : NewBuilder :=
  { b with generatedColumn := b.generatedColumn + n }

/-- The loop of `update_generated_line_and_column_slow`; each turn takes a byte. -/
def slowLoop : Nat → NewBuilder → Bool → Text → NewBuilder
  | 0, b, _, _ => b
  | _, b, _, [] => b
  | fuel + 1, b, needs, b0 :: rest =>
      let len := wtf8ByteSequenceLength b0
      let c := (decodeWtf8Rune b0 (rest[0]?.getD 0) (rest[1]?.getD 0) (rest[2]?.getD 0) len).getD
        0xFFFD
      let behind := (b0 :: rest).drop len
      if 14 ≤ c ∧ c ≤ 127 then
        match indexOfNewlineOrNonAscii behind with
        | some j => slowLoop fuel (b.addColumns (j + 1)) needs (behind.drop j)
        | none => b.addColumns (behind.length + 1)
      else if c = 0x0D ∨ c = 0x0A ∨ c = 0x2028 ∨ c = 0x2029 then
        -- the byte that is looked at is not the one behind `\r` but the next one
        if c = 0x0D ∧ behind[1]? = some 0x0A then slowLoop fuel b needs behind
        else
          let next := b.appendLineSeparator needs
          slowLoop fuel next next.needsMapping behind
      else slowLoop fuel (b.addColumns (if c > 0xFFFF then 2 else 1)) needs behind

def updateGeneratedLineAndColumn (b : NewBuilder) (output : Text) : NewBuilder :=
  let slice := output.drop b.lastGeneratedUpdate
  let b :=
    if indexOfNewlineOrNonAscii slice = none then b.addColumns slice.length
    else slowLoop slice.length b b.needsMapping slice
  { b with lastGeneratedUpdate := output.length }

/-- The end of `add_source_mapping`, behind the update, for an original position. -/
def addSourceMapping (b : NewBuilder) (originalLine originalColumn : Int) : NewBuilder :=
  let covered :=
    if b.coverLinesWithoutMappings && !b.lineStartsWithMapping && decide (b.generatedColumn > 0) &&
        b.hasPrevState then b.appendMapping b.lineStart
    else b
  { covered.appendMapping
      { generatedLine := covered.prevState.generatedLine
        generatedColumn := covered.generatedColumn
        sourceIndex := covered.prevState.sourceIndex
        originalLine := max originalLine 0
        originalColumn := max originalColumn 0 } with
    lineStartsWithMapping := true }

/-- The generated line, as the source map has it. -/
def separators (b : NewBuilder) : Nat := b.sourceMap.count .lineSeparator

end NewBuilder

/-- A builder that has been updated behind every one of the pieces of a text. -/
inductive Printed : List (List Char) → NewBuilder → Prop
  | start (cover : Bool) : Printed [] (.start cover)
  | update {pieces : List (List Char)} {b : NewBuilder} (printed : Printed pieces b)
      (piece : List Char) : Printed (pieces ++ [piece])
        (b.updateGeneratedLineAndColumn (encode (pieces ++ [piece]).flatten))
  | mapping {pieces : List (List Char)} {b : NewBuilder} (printed : Printed pieces b)
      (originalLine originalColumn : Int) :
        Printed pieces (b.addSourceMapping originalLine originalColumn)

/-! ### Line breaks -/

def isBreak (c : Char) : Bool :=
  c.toNat = 0x0D || c.toNat = 0x0A || c.toNat = 0x2028 || c.toNat = 0x2029

/-- The characters that break lines, `\r\n` as two. -/
def breaks (chars : List Char) : Nat := chars.countP isBreak

/-- What is behind the last line break, if there was `soFar` on the line before. -/
def lineBehind (soFar chars : List Char) : List Char :=
  chars.foldl (fun line c => if isBreak c then [] else line ++ [c]) soFar

def lastLine (chars : List Char) : List Char := lineBehind [] chars

/-- The bytes `\r` that have `\n` behind them, and `between` bytes between. -/
def returnsBefore (between : Nat) : Text → Nat
  | [] => 0
  | b0 :: rest =>
      (if b0 = 0x0D ∧ rest[between]? = some 0x0A then 1 else 0) + returnsBefore between rest

section Breaks

variable {c : Char} {chars front behind : List Char}

theorem notBreak_of_plain (plain : isPlain c = true) : isBreak c = false := by
  simp only [isPlain, isBreak, Bool.and_eq_true, decide_eq_true_eq, Bool.or_eq_false_iff,
    decide_eq_false_iff_not] at plain ⊢
  omega

theorem notBreak_of_quiet (quiet : isQuiet c = true) : isBreak c = false := by
  simp only [isQuiet, isBreak, Bool.and_eq_true, decide_eq_true_eq, Bool.or_eq_false_iff,
    decide_eq_false_iff_not] at quiet ⊢
  omega

theorem isBreak_iff : isBreak c = true ↔
    c.toNat = 0x0D ∨ c.toNat = 0x0A ∨ c.toNat = 0x2028 ∨ c.toNat = 0x2029 := by
  simp [isBreak, or_assoc]

theorem breaks_cons (c : Char) (chars : List Char) :
    breaks (c :: chars) = breaks chars + if isBreak c then 1 else 0 :=
  List.countP_cons

theorem breaks_append (front behind : List Char) :
    breaks (front ++ behind) = breaks front + breaks behind :=
  List.countP_append

theorem breaks_none (none : ∀ d ∈ chars, isBreak d = false) : breaks chars = 0 :=
  List.countP_eq_zero.mpr fun d member => Bool.eq_false_iff.mp (none d member)

theorem lineBehind_append (soFar front behind : List Char) :
    lineBehind soFar (front ++ behind) = lineBehind (lineBehind soFar front) behind :=
  List.foldl_append

theorem lineBehind_cons (soFar : List Char) (c : Char) (chars : List Char) :
    lineBehind soFar (c :: chars) = lineBehind (if isBreak c then [] else soFar ++ [c]) chars := rfl

theorem lineBehind_none {soFar : List Char} (none : ∀ d ∈ chars, isBreak d = false) :
    lineBehind soFar chars = soFar ++ chars := by
  induction chars generalizing soFar with
  | nil => exact (List.append_nil _).symm
  | cons c chars ih =>
      have stays : isBreak c = false := none c (List.mem_cons_self ..)
      rw [lineBehind_cons, stays, if_neg Bool.false_ne_true,
        ih fun d member => none d (List.mem_cons_of_mem _ member),
        List.append_assoc]
      rfl

/-- Behind a line break it does not matter what was on the line before. -/
theorem lineBehind_break (some : ∃ d ∈ chars, isBreak d = true) (soFar soFar' : List Char) :
    lineBehind soFar chars = lineBehind soFar' chars := by
  induction chars generalizing soFar soFar' with
  | nil =>
      obtain ⟨d, member, _⟩ := some
      exact absurd member (List.not_mem_nil)
  | cons c chars ih =>
      rw [lineBehind_cons, lineBehind_cons]
      by_cases ends : isBreak c = true
      · rw [if_pos ends, if_pos ends]
      · rw [if_neg ends, if_neg ends]
        apply ih
        obtain ⟨d, member, isBreak⟩ := some
        rcases List.mem_cons.mp member with rfl | behind
        · exact absurd isBreak ends
        · exact ⟨d, behind, isBreak⟩

theorem returnsBefore_large {between : Nat} {bytes text : Text} (large : ∀ b ∈ bytes, 0x80 ≤ b) :
    returnsBefore between (bytes ++ text) = returnsBefore between text := by
  induction bytes with
  | nil => rfl
  | cons b0 bytes ih =>
      have notReturn : ¬b0 = 0x0D := by
        rintro rfl
        exact absurd (large _ (List.mem_cons_self ..)) (by decide)
      rw [List.cons_append, returnsBefore, if_neg fun both => notReturn both.1, Nat.zero_add]
      exact ih fun b member => large b (List.mem_cons_of_mem _ member)

theorem byte_of_char {n : Nat} (small : n ≤ 0x7F) (ascii : c.toNat ≤ 0x7F) :
    UInt8.ofNat c.toNat = UInt8.ofNat n ↔ c.toNat = n := by
  have value : (UInt8.ofNat n).toNat = n :=
    UInt8.toNat_ofNat_of_lt (Nat.lt_of_le_of_lt small (by decide))
  rw [← UInt8.toNat_inj, ascii_byte ascii, value]

theorem returnsBefore_cons (between : Nat) (c : Char) (chars : List Char) :
    returnsBefore between (encode (c :: chars)) =
      (if c.toNat = 0x0D ∧ (encode chars)[between]? = some 0x0A then 1 else 0) +
        returnsBefore between (encode chars) := by
  rw [encode_cons]
  by_cases ascii : c.toNat ≤ 0x7F
  · rw [encodeChar_one ascii, List.singleton_append, returnsBefore]
    have same : UInt8.ofNat c.toNat = 0x0D ↔ c.toNat = 0x0D := byte_of_char (by decide) ascii
    simp only [same]
  · obtain ⟨first, tail, sequence⟩ := sequence_of_char (Nat.lt_of_not_le ascii)
    rw [sequence.bytes, returnsBefore_large sequence.large, if_neg (fun both => by omega),
      Nat.zero_add]

theorem returnsBefore_none {between : Nat} (none : ∀ d ∈ front, isBreak d = false) :
    returnsBefore between (encode (front ++ behind)) = returnsBefore between (encode behind) := by
  induction front with
  | nil => rfl
  | cons c front ih =>
      have notReturn : ¬c.toNat = 0x0D := by
        intro isReturn
        have stays := none c (List.mem_cons_self ..)
        rw [isBreak_iff.mpr (.inl isReturn)] at stays
        cases stays
      rw [List.cons_append, returnsBefore_cons, if_neg fun both => notReturn both.1, Nat.zero_add]
      exact ih fun d member => none d (List.mem_cons_of_mem _ member)

/-- Where the byte `\n` is, a line breaks. -/
theorem break_of_feed {i : Nat} (feed : (encode chars)[i]? = some 0x0A) :
    ∃ d ∈ chars, isBreak d = true := by
  obtain ⟨d, isIn, inBytes⟩ := List.mem_flatMap.mp (List.mem_of_getElem? feed)
  refine ⟨d, isIn, isBreak_iff.mpr (.inr (.inl ?_))⟩
  by_cases ascii : d.toNat ≤ 0x7F
  · rw [encodeChar_one ascii] at inBytes
    exact (byte_of_char (by decide) ascii).mp (List.mem_singleton.mp inBytes).symm
  · obtain ⟨first, tail, sequence⟩ := sequence_of_char (Nat.lt_of_not_le ascii)
    rw [sequence.bytes] at inBytes
    exact absurd (sequence.large _ inBytes) (by decide)

end Breaks

/-! ### The builder, piece by piece -/

/-- What a builder makes of characters: `skipped` line breaks are not counted. -/
structure Moved (b b' : NewBuilder) (chars : List Char) (skipped : Nat) : Prop where
  lines : b'.separators + skipped = b.separators + breaks chars
  line : b'.prevState.generatedLine - b'.separators = b.prevState.generatedLine - b.separators
  column (soFar : List Char) (isColumn : b.generatedColumn = width16 soFar) :
    b'.generatedColumn = width16 (lineBehind soFar chars)

section Builder

variable {b b' : NewBuilder} {c : Char} {chars run behind : List Char} {needs : Bool}

theorem Moved.columns (none : ∀ d ∈ chars, isBreak d = false) {n : Nat}
    (width : width16 chars = n) :
    Moved b (b.addColumns n) chars 0 := by
  refine ⟨?_, rfl, ?_⟩
  · rw [breaks_none none]
    rfl
  · intro soFar isColumn
    rw [lineBehind_none none, width16_append, ← isColumn, width]
    rfl

theorem Moved.append {b'' : NewBuilder} {skipped more : Nat} (first : Moved b b' run skipped)
    (second : Moved b' b'' behind more) : Moved b b'' (run ++ behind) (skipped + more) := by
  refine ⟨?_, second.line.trans first.line, ?_⟩
  · have lines := first.lines
    have moreLines := second.lines
    rw [breaks_append]
    omega
  · intro soFar isColumn
    rw [lineBehind_append]
    exact second.column _ (first.column soFar isColumn)

theorem separators_lineSeparator : (b.appendLineSeparator needs).separators = b.separators + 1 := by
  unfold NewBuilder.appendLineSeparator NewBuilder.separators
  cases needs with
  | false => simp
  | true => simp [NewBuilder.appendMapping]

theorem Moved.break (ends : isBreak c = true) : Moved b (b.appendLineSeparator needs) [c] 0 := by
  refine ⟨?_, ?_, ?_⟩
  · rw [separators_lineSeparator, breaks_cons, if_pos ends]
    rfl
  · rw [separators_lineSeparator]
    cases needs with
    | false =>
        show b.prevState.generatedLine + 1 - _ = _
        omega
    | true =>
        show b.prevState.generatedLine + 1 - _ = _
        omega
  · intro soFar _
    rw [lineBehind_cons, if_pos ends]
    rfl

/-- A line break that is not counted in front of another one. -/
theorem Moved.skip {skipped : Nat} (ends : isBreak c = true) (some : ∃ d ∈ chars, isBreak d = true)
    (moved : Moved b b' chars skipped) : Moved b b' (c :: chars) (1 + skipped) := by
  refine ⟨?_, moved.line, ?_⟩
  · have lines := moved.lines
    rw [breaks_cons, if_pos ends]
    omega
  · intro soFar isColumn
    rw [lineBehind_cons, if_pos ends, lineBehind_break some [] soFar]
    exact moved.column soFar isColumn

/-- The code point of a character, as the loop reads it. -/
theorem char_decoded (c : Char) (text : Text) : ∃ b0 tail, String.utf8EncodeChar c = b0 :: tail ∧
    wtf8ByteSequenceLength b0 = tail.length + 1 ∧
      decodeWtf8Rune b0 ((tail ++ text)[0]?.getD 0) ((tail ++ text)[1]?.getD 0)
        ((tail ++ text)[2]?.getD 0) (tail.length + 1) = some c.toNat := by
  by_cases ascii : c.toNat ≤ 0x7F
  · have single : ∀ n : Fin 128, wtf8ByteSequenceLength (UInt8.ofNat n) = 1 := by decide +kernel
    refine ⟨_, [], encodeChar_one ascii, single ⟨c.toNat, Nat.lt_succ_of_le ascii⟩, ?_⟩
    rw [List.length_nil, decodeWtf8Rune, if_pos rfl, ascii_byte ascii]
  · obtain ⟨first, tail, sequence⟩ := sequence_of_char (Nat.lt_of_not_le ascii)
    exact ⟨first, tail, sequence.bytes, sequence.announced, sequence.decoded text⟩

/-- The loop of the slow path. -/
theorem slowLoop_moved {fuel : Nat} (enough : (encode chars).length ≤ fuel) :
    Moved b (b.slowLoop fuel needs (encode chars)) chars (returnsBefore 1 (encode chars)) := by
  induction fuel generalizing b needs chars with
  | zero =>
      cases chars with
      | nil => exact .columns (fun _ member => absurd member (List.not_mem_nil)) rfl
      | cons c chars =>
          have positive := char_bytes c
          rw [encode_cons, List.length_append] at enough
          omega
  | succ fuel ih =>
      cases chars with
      | nil => exact .columns (fun _ member => absurd member (List.not_mem_nil)) rfl
      | cons c chars =>
          obtain ⟨b0, tail, bytes, announced, decoded⟩ := char_decoded c (encode chars)
          have isText : encode (c :: chars) = b0 :: (tail ++ encode chars) := by
            rw [encode_cons, bytes]
            rfl
          have less : (encode chars).length ≤ fuel := by
            rw [isText, List.length_cons, List.length_append] at enough
            omega
          rw [returnsBefore_cons, isText, NewBuilder.slowLoop]
          dsimp only
          rw [announced, decoded, List.drop_succ_cons, List.drop_left, Option.getD_some]
          split
          · next quiet =>
            have isQuietFirst : isQuiet c = true := by simpa [isQuiet] using quiet
            obtain ⟨run, behind, rfl, plain, stops⟩ := run_cut chars
            have noBreak : ∀ d ∈ c :: run, isBreak d = false := by
              intro d member
              rcases List.mem_cons.mp member with rfl | inRun
              · exact notBreak_of_quiet isQuietFirst
              · exact notBreak_of_plain (plain d inRun)
            have ascii : ∀ d ∈ c :: run, isAscii d = true := by
              intro d member
              rcases List.mem_cons.mp member with rfl | inRun
              · exact decide_eq_true quiet.2
              · exact ascii_of_plain (plain d inRun)
            have width : width16 (c :: run) = run.length + 1 := width16_ascii ascii
            have runBytes : (encode run).length = run.length :=
              encode_ascii_length fun d member => ascii d (List.mem_cons_of_mem _ member)
            rw [if_neg fun both => by omega, Nat.zero_add,
              returnsBefore_none fun d member => noBreak d (List.mem_cons_of_mem _ member),
              index_run plain stops]
            split
            · next j isFound =>
              split at isFound
              · cases isFound
              · cases isFound
                have drops : (encode (run ++ behind)).drop run.length = encode behind := by
                  rw [encode_append, ← runBytes, List.drop_left]
                have moved : Moved b (b.addColumns (run.length + 1)) (c :: run) 0 :=
                  .columns noBreak width
                rw [drops, ← Nat.zero_add (returnsBefore 1 (encode behind))]
                apply moved.append
                apply ih
                rw [encode_append, List.length_append] at less
                omega
            · next isFound =>
              split at isFound
              · next isEnd =>
                rw [isEnd, List.append_nil, runBytes]
                exact .columns noBreak width
              · cases isFound
          · next notQuiet =>
            split
            · next isBreakPoint =>
              have ends : isBreak c = true := isBreak_iff.mpr isBreakPoint
              split
              · next isSkipped =>
                exact (ih less).skip ends (break_of_feed isSkipped.2)
              · exact (Moved.break ends).append (ih less)
            · next noBreakPoint =>
              have stays : isBreak c = false := by
                rw [Bool.eq_false_iff]
                exact fun ends => noBreakPoint (isBreak_iff.mp ends)
              have noBreak : ∀ d ∈ [c], isBreak d = false := fun d member => by
                rw [List.mem_singleton.mp member]
                exact stays
              have notReturn : ¬(c.toNat = 0x0D ∧ (encode chars)[1]? = some 0x0A) :=
                fun both => noBreakPoint (.inl both.1)
              rw [if_neg notReturn]
              exact (Moved.columns noBreak (width16_singleton c)).append (ih less)

/-- What a builder makes of a piece that is printed. -/
theorem update_moved {output : Text} (slice : output.drop b.lastGeneratedUpdate = encode chars) :
    Moved b (b.updateGeneratedLineAndColumn output) chars (returnsBefore 1 (encode chars)) := by
  have isMoved : Moved b
      (if indexOfNewlineOrNonAscii (encode chars) = none then b.addColumns (encode chars).length
        else b.slowLoop (encode chars).length b.needsMapping (encode chars)) chars
      (returnsBefore 1 (encode chars)) := by
    split
    · next none =>
      -- the fast path: nothing but printable ASCII
      obtain ⟨run, behind, rfl, plain, stops⟩ := run_cut chars
      rw [index_run plain stops] at none
      split at none
      · next isEnd =>
        rw [isEnd, List.append_nil]
        have noBreak : ∀ d ∈ run, isBreak d = false :=
          fun d member => notBreak_of_plain (plain d member)
        have ascii : ∀ d ∈ run, isAscii d = true := fun d member => ascii_of_plain (plain d member)
        have noReturn : returnsBefore 1 (encode run) = 0 := by
          rw [← List.append_nil run, returnsBefore_none noBreak]
          rfl
        rw [noReturn, encode_ascii_length ascii]
        exact .columns noBreak (width16_ascii ascii)
      · cases none
    · exact slowLoop_moved (Nat.le_refl _)
  unfold NewBuilder.updateGeneratedLineAndColumn
  rw [slice]
  exact ⟨isMoved.lines, isMoved.line, isMoved.column⟩

end Builder

/-- The place that a builder has got to behind the pieces of a text. -/
structure PlaceOf (pieces : List (List Char)) (b : NewBuilder) : Prop where
  updated : b.lastGeneratedUpdate = (encode pieces.flatten).length
  line : b.prevState.generatedLine = b.separators
  lines : b.separators + (pieces.map fun piece => returnsBefore 1 (encode piece)).sum =
    breaks pieces.flatten
  column : b.generatedColumn = width16 (lastLine pieces.flatten)

section Place

variable {pieces : List (List Char)} {b : NewBuilder}

theorem PlaceOf.update (place : PlaceOf pieces b) (piece : List Char) : PlaceOf (pieces ++ [piece])
    (b.updateGeneratedLineAndColumn (encode (pieces ++ [piece]).flatten)) := by
  have allPieces : (pieces ++ [piece]).flatten = pieces.flatten ++ piece := by simp
  have slice : (encode (pieces ++ [piece]).flatten).drop b.lastGeneratedUpdate = encode piece := by
    rw [allPieces, encode_append, place.updated, List.drop_left]
  rw [allPieces] at slice ⊢
  have moved := update_moved slice
  refine ⟨?_, ?_, ?_, ?_⟩
  · rw [allPieces]
    rfl
  · have before := place.line
    have behind := moved.line
    omega
  · have before := place.lines
    have behind := moved.lines
    rw [allPieces, breaks_append, List.map_append, List.sum_append, List.map_singleton,
      List.sum_singleton]
    omega
  · have behind := moved.column _ place.column
    rw [allPieces]
    unfold lastLine
    rw [lineBehind_append]
    exact behind

theorem PlaceOf.appendMapping (place : PlaceOf pieces b) {current : SourceMapState}
    (sameLine : current.generatedLine = b.prevState.generatedLine) :
    PlaceOf pieces (b.appendMapping current) := by
  have appended : (b.appendMapping current).separators = b.separators := by
    simp [NewBuilder.separators, NewBuilder.appendMapping]
  refine ⟨place.updated, ?_, ?_, place.column⟩
  · rw [appended]
    exact sameLine.trans place.line
  · rw [appended]
    exact place.lines

theorem PlaceOf.mapped (place : PlaceOf pieces b) {current : SourceMapState}
    (sameLine : current.generatedLine = b.prevState.generatedLine) :
    PlaceOf pieces { b.appendMapping current with lineStartsWithMapping := true } :=
  have added := place.appendMapping sameLine
  ⟨added.updated, added.line, added.lines, added.column⟩

/-- Mappings are added at the place that the builder has got to, and it stays there. -/
theorem PlaceOf.mapping (place : PlaceOf pieces b) (originalLine originalColumn : Int) :
    PlaceOf pieces (b.addSourceMapping originalLine originalColumn) := by
  unfold NewBuilder.addSourceMapping
  split
  · have covered : PlaceOf pieces (b.appendMapping b.lineStart) := place.appendMapping rfl
    exact covered.mapped rfl
  · exact place.mapped rfl

/-- Where a builder has got to, in every run. -/
theorem printed_place (printed : Printed pieces b) : PlaceOf pieces b := by
  induction printed with
  | start cover => exact ⟨rfl, rfl, rfl, rfl⟩
  | update printed piece ih => exact ih.update piece
  | mapping printed originalLine originalColumn ih =>
      exact ih.mapping originalLine originalColumn

end Place

/-! ### The text in one pass -/

section Advance

variable {this : TextOffset.LineColumnOffset} {c : Char} {run rest chars : List Char}

open TextOffset.LineColumnOffset

/-- The code point at the beginning of a text. -/
theorem nextCodepoint_char (c : Char) (text : Text) :
    nextCodepoint (String.utf8EncodeChar c ++ text) =
      (c.toNat, (String.utf8EncodeChar c).length) := by
  by_cases ascii : c.toNat ≤ 0x7F
  · have small : UInt8.ofNat c.toNat < 0x80 := by
      rw [UInt8.lt_iff_toNat_lt, ascii_byte ascii]
      exact Nat.lt_succ_of_le ascii
    rw [encodeChar_one ascii, List.singleton_append, nextCodepoint]
    dsimp only
    rw [if_pos small, ascii_byte ascii]
    rfl
  · obtain ⟨first, tail, sequence⟩ := sequence_of_char (Nat.lt_of_not_le ascii)
    have large : ¬first < 0x80 := by
      have atLeast := sequence.large first (List.mem_cons_self ..)
      rw [UInt8.le_iff_toNat_le] at atLeast
      rw [UInt8.lt_iff_toNat_lt]
      omega
    rw [sequence.bytes, List.cons_append, nextCodepoint]
    dsimp only
    rw [if_neg large, sequence.announced, sequence.decoded]
    rfl

theorem advance_plain_run (plain : ∀ d ∈ run, isPlain d = true) :
    this.advance (encode run) = this.addColumns run.length := by
  have index : indexOfNewlineOrNonAscii (encode (run ++ [])) = none :=
    index_run plain fun _ isHead => by cases isHead
  rw [List.append_nil] at index
  rw [advance_plain index, encode_ascii_length fun d member => ascii_of_plain (plain d member)]

/-- A character that is stopped at, behind a run that leaves no trace. -/
theorem advance_run (plain : ∀ d ∈ run, isPlain d = true) (stops : isPlain c = false) :
    this.advance (encode (run ++ c :: rest)) =
      (this.character c.toNat ((String.utf8EncodeChar c ++ encode rest)[1]? = some 0x0A)).advance
        (encode rest) := by
  have index : indexOfNewlineOrNonAscii (encode (run ++ c :: rest)) =
      if c :: rest = [] then none else some run.length :=
    index_run plain fun d isHead => by
      cases isHead
      exact stops
  rw [if_neg (List.cons_ne_nil _ _)] at index
  have runBytes : (encode run).length = run.length :=
    encode_ascii_length fun d member => ascii_of_plain (plain d member)
  have atStop : (encode (run ++ c :: rest)).drop run.length =
      String.utf8EncodeChar c ++ encode rest := by
    rw [encode_append, ← runBytes, List.drop_left, encode_cons]
  rw [advance_stop index, atStop, nextCodepoint_char, List.drop_left]

/-- A `\r` with `\n` behind it is a column, another line break ends the line, and every other
character has its units. -/
theorem character_cases (this : TextOffset.LineColumnOffset) (c : Char) (rest : List Char) :
    (c.toNat = 0x0D ∧ (encode rest)[0]? = some 0x0A ∧
      this.character c.toNat ((String.utf8EncodeChar c ++ encode rest)[1]? = some 0x0A) =
        this.addColumns (units c)) ∨
    (isBreak c = true ∧ ¬(c.toNat = 0x0D ∧ (encode rest)[0]? = some 0x0A) ∧
      this.character c.toNat ((String.utf8EncodeChar c ++ encode rest)[1]? = some 0x0A) =
        { lines := this.lines + 1, columns := 0 }) ∨
    (isBreak c = false ∧
      this.character c.toNat ((String.utf8EncodeChar c ++ encode rest)[1]? = some 0x0A) =
        this.addColumns (units c)) := by
  have feed : (c.toNat = 0x0D ∧ (String.utf8EncodeChar c ++ encode rest)[1]? = some 0x0A) ↔
      c.toNat = 0x0D ∧ (encode rest)[0]? = some 0x0A := by
    apply and_congr_right
    intro isReturn
    rw [encodeChar_one (by omega)]
    rfl
  unfold TextOffset.LineColumnOffset.character
  simp only [decide_eq_true_eq]
  by_cases ends : isBreak c = true
  · rw [if_pos (isBreak_iff.mp ends)]
    split
    · next joined =>
      obtain ⟨isReturn, isFeed⟩ := feed.mp joined
      have one : units c = 1 := if_neg (by omega)
      rw [one]
      exact .inl ⟨isReturn, isFeed, rfl⟩
    · next notJoined => exact .inr (.inl ⟨ends, fun both => notJoined (feed.mpr both), rfl⟩)
  · rw [if_neg fun isPoint => ends (isBreak_iff.mpr isPoint)]
    exact .inr (.inr ⟨Bool.eq_false_iff.mpr ends, rfl⟩)

end Advance

/-- The columns of a line that the text ends in: those of printable ASCII are counted behind the
last character that is not, only. -/
def LineColumns (line : List Char) (columns : Nat) : Prop :=
  ∃ front run, line = front ++ run ∧ (∀ d ∈ run, isPlain d = true) ∧
    (∀ d ∈ front.getLast?, isPlain d = false) ∧
      columns = width16 (front.filter fun d => !isPlain d) + run.length

section Count

variable {this : TextOffset.LineColumnOffset} {soFar : List Char}

open TextOffset.LineColumnOffset

/-- Where a text ends, in one pass. -/
theorem advance_place (chars : List Char)
    (isColumn : this.columns = width16 (soFar.filter fun d => !isPlain d))
    (ends : ∀ d ∈ soFar.getLast?, isPlain d = false) :
    (this.advance (encode chars)).lines + returnsBefore 0 (encode chars) =
        this.lines + breaks chars ∧
      LineColumns (lineBehind soFar chars) (this.advance (encode chars)).columns := by
  obtain ⟨size, isSize⟩ : ∃ size, chars.length ≤ size := ⟨_, Nat.le_refl _⟩
  induction size generalizing this soFar chars with
  | zero =>
      obtain rfl := List.length_eq_zero_iff.mp (Nat.le_zero.mp isSize)
      refine ⟨rfl, soFar, [], (List.append_nil _).symm, ?_, ends, isColumn⟩
      exact fun d member => absurd member (List.not_mem_nil)
  | succ size ih =>
      obtain ⟨run, behind, rfl, plain, stops⟩ := run_cut chars
      have noBreak : ∀ d ∈ run, isBreak d = false :=
        fun d member => notBreak_of_plain (plain d member)
      rw [returnsBefore_none noBreak, breaks_append, breaks_none noBreak, Nat.zero_add,
        lineBehind_append, lineBehind_none noBreak]
      cases behind with
      | nil =>
          rw [List.append_nil, advance_plain_run plain]
          exact ⟨rfl, soFar, run, rfl, plain, ends, congrArg (· + run.length) isColumn⟩
      | cons c rest =>
          have stopsHere := stops c rfl
          have shorter : rest.length ≤ size := by
            rw [List.length_append, List.length_cons] at isSize
            omega
          have noTrace : run.filter (fun d => !isPlain d) = [] := by
            rw [List.filter_eq_nil_iff]
            intro d member
            simp [plain d member]
          have columns : (this.addColumns (units c)).columns =
              width16 ((soFar ++ run ++ [c]).filter fun d => !isPlain d) := by
            rw [List.filter_append, List.filter_append, noTrace, List.append_nil, width16_append,
              ← isColumn, List.filter_cons_of_pos (by simpa using stopsHere), List.filter_nil,
              width16_singleton]
            rfl
          have endsHere : ∀ d ∈ (soFar ++ run ++ [c]).getLast?, isPlain d = false := by
            intro d isLast
            rw [List.getLast?_concat] at isLast
            cases isLast
            exact stopsHere
          rw [advance_run plain stopsHere, returnsBefore_cons, breaks_cons, lineBehind_cons]
          rcases character_cases this c rest with
            ⟨isReturn, isFeed, moved⟩ | ⟨isEnd, notJoined, moved⟩ | ⟨stays, moved⟩
          · obtain ⟨lines, isLine⟩ := ih rest columns endsHere shorter
            rw [moved, if_pos ⟨isReturn, isFeed⟩, if_pos (isBreak_iff.mpr (.inl isReturn)),
              if_pos (isBreak_iff.mpr (.inl isReturn)),
              lineBehind_break (break_of_feed isFeed) [] (soFar ++ run ++ [c])]
            have sameLines : (this.addColumns (units c)).lines = this.lines := rfl
            exact ⟨by omega, isLine⟩
          · obtain ⟨next, isNext⟩ : ∃ next : TextOffset.LineColumnOffset,
                next = { lines := this.lines + 1, columns := 0 } := ⟨_, rfl⟩
            have nextLines : next.lines = this.lines + 1 := by rw [isNext]
            have nextColumn : next.columns =
                width16 (([] : List Char).filter fun d => !isPlain d) := by
              rw [isNext]
              rfl
            obtain ⟨lines, isLine⟩ := ih rest nextColumn
              (fun _ isLast => by cases isLast) shorter
            rw [moved, ← isNext, if_neg notJoined, if_pos isEnd, if_pos isEnd, Nat.zero_add]
            exact ⟨by omega, isLine⟩
          · obtain ⟨lines, isLine⟩ := ih rest columns endsHere shorter
            have notJoined : ¬(c.toNat = 0x0D ∧ (encode rest)[0]? = some 0x0A) := by
              intro both
              rw [isBreak_iff.mpr (.inl both.1)] at stays
              cases stays
            rw [moved, if_neg notJoined, stays, if_neg Bool.false_ne_true,
              if_neg Bool.false_ne_true, Nat.zero_add]
            have sameLines : (this.addColumns (units c)).lines = this.lines := rfl
            exact ⟨by omega, isLine⟩

theorem width16_filter (p : Char → Bool) (chars : List Char) :
    width16 chars = width16 (chars.filter p) + width16 (chars.filter fun c => !p c) := by
  induction chars with
  | nil => rfl
  | cons c chars ih =>
      cases isIn : p c with
      | true =>
          rw [List.filter_cons_of_pos isIn, List.filter_cons_of_neg (by simp [isIn]), width16_cons,
            width16_cons]
          omega
      | false =>
          rw [List.filter_cons_of_neg (by simp [isIn]), List.filter_cons_of_pos (by simp [isIn]),
            width16_cons, width16_cons]
          omega

theorem width16_eq_zero {chars : List Char} (zero : width16 chars = 0) : chars = [] := by
  cases chars with
  | nil => rfl
  | cons c chars =>
      have positive := units_pos c
      rw [width16_cons] at zero
      omega

/-- The columns of a line are its width where no printable ASCII is in front of something else. -/
theorem LineColumns.eq_iff {line : List Char} {columns : Nat} (counted : LineColumns line columns) :
    width16 line = columns ↔ line.Pairwise fun c d => isPlain c = true → isPlain d = true := by
  obtain ⟨front, run, rfl, plain, ends, rfl⟩ := counted
  have runWidth : width16 run = run.length :=
    width16_ascii fun d member => ascii_of_plain (plain d member)
  have parts := width16_filter isPlain front
  rw [width16_append, runWidth, Nat.add_right_cancel_iff]
  constructor
  · intro same
    have nothing : front.filter isPlain = [] := width16_eq_zero (by omega)
    have notPlain := List.filter_eq_nil_iff.mp nothing
    rw [List.pairwise_append]
    refine ⟨?_, ?_, ?_⟩
    · exact List.pairwise_of_forall_mem_list fun c member _ _ isPlainHere =>
        absurd isPlainHere (notPlain c member)
    · exact List.pairwise_of_forall_mem_list fun _ _ d member _ => plain d member
    · exact fun c member _ _ isPlainHere => absurd isPlainHere (notPlain c member)
  · intro ordered
    have nothing : front.filter isPlain = [] := by
      rw [List.filter_eq_nil_iff]
      intro c member isPlainHere
      rcases List.eq_nil_or_concat front with rfl | ⟨init, last, rfl⟩
      · exact absurd member (List.not_mem_nil)
      · rw [List.concat_eq_append] at member ends ordered
        have notLast := ends last (List.getLast?_concat ..)
        rcases List.mem_append.mp member with inInit | isLast
        · obtain ⟨inFront, _, _⟩ := List.pairwise_append.mp ordered
          obtain ⟨_, _, before⟩ := List.pairwise_append.mp inFront
          rw [before c inInit last (List.mem_singleton_self _) isPlainHere] at notLast
          cases notLast
        · rw [List.mem_singleton.mp isLast, notLast] at isPlainHere
          cases isPlainHere
    have noWidth : width16 (front.filter isPlain) = 0 := by
      rw [nothing]
      rfl
    omega

end Count

/-- The generated line and column are those in which the text ends, if and only if as many `\r` are
skipped as have `\n` directly behind them, and on the last line no printable ASCII is in front of
something else. -/
theorem generated_position {pieces : List (List Char)} {b : NewBuilder}
    (printed : Printed pieces b) :
    b.prevState.generatedLine = b.separators ∧
    (b.separators = (TextOffset.LineColumnOffset.zero.advance (encode pieces.flatten)).lines ∧
        b.generatedColumn =
          (TextOffset.LineColumnOffset.zero.advance (encode pieces.flatten)).columns ↔
      (pieces.map fun piece => returnsBefore 1 (encode piece)).sum =
          returnsBefore 0 (encode pieces.flatten) ∧
        (lastLine pieces.flatten).Pairwise fun c d => isPlain c = true → isPlain d = true) := by
  have place := printed_place printed
  have start : TextOffset.LineColumnOffset.zero.columns =
      width16 (([] : List Char).filter fun d => !isPlain d) := rfl
  obtain ⟨lines, counted⟩ :=
    advance_place pieces.flatten start (fun _ isLast => by cases isLast)
  have before := place.lines
  have zeroLines : TextOffset.LineColumnOffset.zero.lines = 0 := rfl
  refine ⟨place.line, and_congr ?_ ?_⟩
  · constructor
    · intro same
      omega
    · intro same
      omega
  · rw [place.column]
    exact counted.eq_iff

/-- A text of two lines in two pieces, with a mapping between. -/
theorem generated_position_sample : ∃ b, Printed [['a'], ['\n', 'b']] b ∧
    b.separators = (TextOffset.LineColumnOffset.zero.advance (encode ['a', '\n', 'b'])).lines ∧
    b.generatedColumn =
      (TextOffset.LineColumnOffset.zero.advance (encode ['a', '\n', 'b'])).columns :=
  have printed := Printed.update (.mapping (.update (.start true) ['a']) 0 0) ['\n', 'b']
  ⟨_, printed, (generated_position printed).2.mpr ⟨by decide +kernel, by decide +kernel⟩⟩

/-- `\r\n` breaks one line, and two are counted for it. -/
theorem crlf_printed_at_once : ∃ b, Printed [['\r', '\n']] b ∧ b.separators = 2 ∧
    (TextOffset.LineColumnOffset.zero.advance (encode ['\r', '\n'])).lines = 1 :=
  ⟨_, .update (.start false) ['\r', '\n'], by decide +kernel, by decide +kernel⟩

end Bunx.SourceMap
