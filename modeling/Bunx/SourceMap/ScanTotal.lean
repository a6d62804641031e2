/-
Module: Bunx.SourceMap.ScanTotal
Purpose: The scan for the lines of a source ends within it when every sequence of bytes that is
  announced is there, and its rows begin further and further on.
Trusted boundary: texts of less than 2^31 bytes
Main exports: WholeSequences, ScanInv, turn_spec, scanLoop_spec, generateIn_total,
  cut_sequence_panics
-/
import Bunx.SourceMap.LineOffsetTable
import Mathlib.Data.List.Chain

namespace Bunx.SourceMap

open TextOffset

/-- The sequences of a text, from its first byte on, have all the bytes that their first bytes
announce. -/
inductive WholeSequences : Text → Prop
  | nil : WholeSequences []
  | cons {b0 : UInt8} {rest : Text} (fits : wtf8ByteSequenceLength b0 ≤ (b0 :: rest).length)
      (behind : WholeSequences ((b0 :: rest).drop (wtf8ByteSequenceLength b0))) :
      WholeSequences (b0 :: rest)

section Sequences

variable {b0 : UInt8} {rest text : Text}

theorem wholeSequences_cons_iff : WholeSequences (b0 :: rest) ↔
    wtf8ByteSequenceLength b0 ≤ (b0 :: rest).length ∧
      WholeSequences ((b0 :: rest).drop (wtf8ByteSequenceLength b0)) := by
  constructor
  · intro whole
    cases whole with
    | cons fits behind => exact ⟨fits, behind⟩
  · rintro ⟨fits, behind⟩
    exact .cons fits behind

theorem wholeSequences_single (single : wtf8ByteSequenceLength b0 = 1) :
    WholeSequences (b0 :: rest) ↔ WholeSequences rest := by
  rw [wholeSequences_cons_iff, single]
  exact ⟨And.right, fun whole => ⟨Nat.succ_le_succ (Nat.zero_le _), whole⟩⟩

/-- Bytes that stand for themselves are passed one by one. -/
theorem wholeSequences_append {front : Text}
    (single : ∀ c ∈ front, wtf8ByteSequenceLength c = 1) :
    WholeSequences (front ++ text) ↔ WholeSequences text := by
  induction front with
  | nil => exact Iff.rfl
  | cons c front ih =>
      rw [List.cons_append, wholeSequences_single (single c (List.mem_cons_self ..))]
      exact ih fun d member => single d (List.mem_cons_of_mem _ member)

theorem single_of_unflagged {c : UInt8} (plain : isNewlineOrNonAscii c = false) :
    wtf8ByteSequenceLength c = 1 := by
  have all : ∀ n : Fin 256, isNewlineOrNonAscii (UInt8.ofNat n) = false →
      wtf8ByteSequenceLength (UInt8.ofNat n) = 1 := by decide +kernel
  have isByte := all ⟨c.toNat, c.toNat_lt⟩
  simp only [UInt8.ofNat_toNat] at isByte
  exact isByte plain

theorem decode_large {p0 p1 p2 p3 : UInt8} {len c : Nat} (several : len ≠ 1)
    (isRune : decodeWtf8Rune p0 p1 p2 p3 len = some c) : 0x80 ≤ c := by
  unfold decodeWtf8Rune at isRune
  rw [if_neg several] at isRune
  split at isRune
  · cases isRune
  · split at isRune
    · dsimp only at isRune
      split at isRune
      · cases isRune
      · next large =>
        cases isRune
        exact Nat.le_of_not_lt large
    · split at isRune
      · cases isRune
      · split at isRune
        · dsimp only at isRune
          split at isRune
          · cases isRune
          · next large =>
            cases isRune
            omega
        · split at isRune
          · cases isRune
          · dsimp only at isRune
            split at isRune
            · cases isRune
            · next large =>
              cases isRune
              omega

/-- Only a single byte is read as an ASCII character other than NUL. -/
theorem single_of_ascii {len : Nat} (nonzero : codePoint b0 rest len ≠ 0)
    (ascii : codePoint b0 rest len < 0x80) : len = 1 := by
  by_contra several
  rw [codePoint, if_neg several] at nonzero ascii
  cases isRune : decodeWtf8Rune b0 (rest[0]?.getD 0) (rest[1]?.getD 0) (rest[2]?.getD 0) len with
  | none =>
      rw [isRune] at nonzero
      exact nonzero rfl
  | some c =>
      rw [isRune] at ascii
      have large := decode_large several isRune
      exact absurd ascii (Nat.not_lt_of_ge large)

end Sequences

/-! ### Rows that begin further and further on -/

/-- Where the line begins, `pos` bytes into the source. -/
def Scan.lineStart (s : Scan) (pos : Nat) : Nat := if s.column = 0 then pos else s.lineByteOffset

def Scan.starts (s : Scan) (pos : Nat) : List Nat :=
  s.list.map LineOffsetTable.byteOffsetToStartOfLine ++ [s.lineStart pos]

/-- What holds `pos` bytes into the source. -/
structure ScanInv (s : Scan) (pos : Nat) : Prop where
  first : (s.starts pos).head? = some 0
  increasing : (s.starts pos).Pairwise (· < ·)
  fresh : s.column = 0 → s.columnsForNonAscii = []
  begun : s.column ≠ 0 → s.lineByteOffset < pos
  behind : s.columnsForNonAscii ≠ [] → s.lineByteOffset + s.columnByteOffset ≤ pos

/-- The scan with its line begun, and the column of this place in its table. -/
structure Entered (s : Scan) (pos : Nat) (s' : Scan) : Prop where
  list : s'.list = s.list
  column : s'.column = s.column
  line : s'.lineByteOffset = s.lineStart pos
  behind : s'.columnsForNonAscii ≠ [] → s'.lineByteOffset + s'.columnByteOffset ≤ pos + 1

section Rows

variable {s s' : Scan} {pos : Nat}

theorem scanInv_start : ScanInv Scan.start 0 where
  first := rfl
  increasing := List.pairwise_singleton _ _
  fresh _ := rfl
  begun column := absurd rfl column
  behind columns := absurd rfl columns

theorem ScanInv.lineStart_le (inv : ScanInv s pos) : s.lineStart pos ≤ pos := by
  unfold Scan.lineStart
  split
  · exact Nat.le_refl _
  · next column => exact Nat.le_of_lt (inv.begun column)

/-- On the same line, further on. -/
theorem Entered.advance (inv : ScanInv s pos) (entered : Entered s pos s') {n k : Nat}
    (positive : 0 < n) (moved : 0 < k) :
    ScanInv { s' with column := s'.column + n } (pos + k) := by
  have columnNonzero : s'.column + n ≠ 0 := by omega
  have sameStarts : { s' with column := s'.column + n }.starts (pos + k) = s.starts pos := by
    unfold Scan.starts
    rw [← entered.line]
    unfold Scan.lineStart
    rw [if_neg columnNonzero, entered.list]
  have lineStart := inv.lineStart_le
  constructor
  · rw [sameStarts]
    exact inv.first
  · rw [sameStarts]
    exact inv.increasing
  · exact fun zero => absurd zero columnNonzero
  · intro _
    show s'.lineByteOffset < pos + k
    rw [entered.line]
    omega
  · intro columns
    have behind := entered.behind columns
    show s'.lineByteOffset + s'.columnByteOffset ≤ pos + k
    omega

/-- On the next line. -/
theorem Entered.endLine (inv : ScanInv s pos) (entered : Entered s pos s') {k : Nat}
    (moved : 0 < k) : ScanInv s'.endLine (pos + k) := by
  have lineStart := inv.lineStart_le
  have allStarts : s'.endLine.starts (pos + k) = s.starts pos ++ [pos + k] := by
    show (s'.list ++ [s'.row]).map LineOffsetTable.byteOffsetToStartOfLine ++ [pos + k] = _
    rw [List.map_append, entered.list]
    show s.list.map LineOffsetTable.byteOffsetToStartOfLine ++ [s'.lineByteOffset] ++ _ = _
    rw [entered.line]
    rfl
  constructor
  · rw [allStarts, List.head?_append, inv.first]
    rfl
  · rw [allStarts, List.pairwise_append]
    refine ⟨inv.increasing, List.pairwise_singleton _ _, ?_⟩
    intro a member b isLast
    rw [List.mem_singleton.mp isLast]
    have isStart : a ≤ s.lineStart pos := by
      obtain ⟨_, _, before⟩ := List.pairwise_append.mp inv.increasing
      rcases List.mem_append.mp member with inList | isLine
      · exact Nat.le_of_lt (before a inList _ (List.mem_singleton_self _))
      · rw [List.mem_singleton.mp isLine]
    omega
  · exact fun _ => rfl
  · exact fun column => absurd rfl column
  · exact fun columns => absurd rfl columns

end Rows

/-! ### Turns -/

/-- What a turn comes to: it leaves the source where a sequence is cut off, or it goes on behind
bytes that make whole sequences. -/
inductive Turned (s : Scan) (pos : Nat) (b0 : UInt8) (rest : Text) : Option (Scan × Text) → Prop
  | cut (short : (b0 :: rest).length < wtf8ByteSequenceLength b0) : Turned s pos b0 rest none
  | on {next : Scan} {k : Nat} (moved : 0 < k) (inside : k ≤ (b0 :: rest).length)
      (same : WholeSequences (b0 :: rest) ↔ WholeSequences ((b0 :: rest).drop k))
      (inv : ScanInv next (pos + k)) : Turned s pos b0 rest (some (next, (b0 :: rest).drop k))

section Turn

variable {s s' next : Scan} {pos : Nat} {b0 : UInt8} {rest : Text}

theorem sequence_positive (b0 : UInt8) : 0 < wtf8ByteSequenceLength b0 :=
  (wtf8ByteSequenceLength_bounds b0).1

theorem takeOff_turned
    (inv : ∀ k, 0 < k → ScanInv next (pos + k)) :
    Turned s pos b0 rest (takeOff next (b0 :: rest) (wtf8ByteSequenceLength b0)) := by
  have moved := sequence_positive b0
  unfold takeOff
  split
  · next short => exact .cut short
  · next fits =>
    have inside := Nat.le_of_not_lt fits
    refine .on moved inside ?_ (inv _ moved)
    rw [wholeSequences_cons_iff]
    exact and_iff_right inside

/-- A turn goes on from a place that has been entered. -/
theorem finishTurn_turned (inv : ScanInv s pos) (entered : Entered s pos s') {c : Nat}
    (isPoint : c = codePoint b0 rest (wtf8ByteSequenceLength b0)) :
    Turned s pos b0 rest (finishTurn s' (b0 :: rest) c (wtf8ByteSequenceLength b0)) := by
  unfold finishTurn
  split
  · split
    · next isReturn =>
      have isCode : codePoint b0 rest (wtf8ByteSequenceLength b0) = 0x0D :=
        isPoint.symm.trans isReturn.1
      have nonzero : codePoint b0 rest (wtf8ByteSequenceLength b0) ≠ 0 := by omega
      have single := single_of_ascii nonzero (by omega)
      refine .on Nat.one_pos (Nat.succ_le_succ (Nat.zero_le _)) ?_
        (entered.advance inv Nat.one_pos Nat.one_pos)
      exact wholeSequences_single single
    · exact takeOff_turned fun k moved => entered.endLine inv moved
  · apply takeOff_turned
    intro k moved
    apply entered.advance inv _ moved
    split
    · exact Nat.two_pos
    · exact Nat.one_pos

theorem beginLine_line (s : Scan) (pos : Nat) : (s.beginLine pos).lineByteOffset =
    s.lineStart pos := by
  unfold Scan.beginLine Scan.lineStart
  split
  · rfl
  · rfl

/-- The line is begun and its table, and the table can be extended. -/
theorem entered_begun (inv : ScanInv s pos) (c : Nat) :
    ((s.beginLine pos).beginTable c pos).list = s.list ∧
    ((s.beginLine pos).beginTable c pos).column = s.column ∧
    ((s.beginLine pos).beginTable c pos).lineByteOffset = s.lineStart pos ∧
    (((s.beginLine pos).beginTable c pos).columnsForNonAscii ≠ [] →
      s.lineStart pos + ((s.beginLine pos).beginTable c pos).columnByteOffset ≤ pos) := by
  have line := beginLine_line s pos
  have list : (s.beginLine pos).list = s.list := by
    unfold Scan.beginLine
    split
    · rfl
    · rfl
  have column : (s.beginLine pos).column = s.column := by
    unfold Scan.beginLine
    split
    · rfl
    · rfl
  have lineStart := inv.lineStart_le
  unfold Scan.beginTable
  split
  · refine ⟨list, column, line, fun _ => ?_⟩
    show s.lineStart pos + (pos - (s.beginLine pos).lineByteOffset) ≤ pos
    rw [line]
    omega
  · refine ⟨list, column, line, ?_⟩
    unfold Scan.beginLine Scan.lineStart
    split
    · next zero =>
      intro columns
      exact absurd (inv.fresh zero) columns
    · exact inv.behind

theorem entered_extended (inv : ScanInv s pos) (list : s'.list = s.list)
    (column : s'.column = s.column) (line : s'.lineByteOffset = s.lineStart pos)
    (behind : s.lineStart pos + s'.columnByteOffset ≤ pos) :
    ∃ s'', s'.extendTable pos = some s'' ∧ Entered s pos s'' := by
  have lineStart := inv.lineStart_le
  unfold Scan.extendTable
  rw [line, if_neg (by omega)]
  refine ⟨_, rfl, list, column, rfl, fun _ => ?_⟩
  show s.lineStart pos + (pos - s.lineStart pos + 1) ≤ pos + 1
  omega

/-- The bytes in front of the index are ASCII. -/
theorem indexFrom_some {j : Nat} (single : wtf8ByteSequenceLength b0 = 1)
    (found : indexFrom (b0 :: rest) 1 = some j) : 0 < j ∧ j ≤ (b0 :: rest).length ∧
      ∀ c ∈ (b0 :: rest).take j, wtf8ByteSequenceLength c = 1 := by
  unfold indexFrom at found
  obtain ⟨i, isIndex, rfl⟩ := Option.map_eq_some_iff.mp found
  have isIndex' : indexOfNewlineOrNonAscii rest = some i := isIndex
  obtain ⟨inside, _, before⟩ := List.findIdx?_eq_some_iff_getElem.mp isIndex'
  refine ⟨Nat.succ_pos i, Nat.succ_le_succ (Nat.le_of_lt inside), ?_⟩
  intro c member
  rw [List.take_succ_cons] at member
  rcases List.mem_cons.mp member with rfl | inRest
  · exact single
  · obtain ⟨k, isIn, rfl⟩ := List.mem_iff_getElem.mp inRest
    have isBefore : k < i := by
      rw [List.length_take] at isIn
      omega
    rw [List.getElem_take]
    exact single_of_unflagged (by simpa using before k isBefore)

theorem indexFrom_none (single : wtf8ByteSequenceLength b0 = 1)
    (found : indexFrom (b0 :: rest) 1 = none) :
    ∀ c ∈ b0 :: rest, wtf8ByteSequenceLength c = 1 := by
  unfold indexFrom at found
  have plain := List.findIdx?_eq_none_iff.mp (Option.map_eq_none_iff.mp found)
  rw [List.drop_succ_cons, List.drop_zero] at plain
  intro c member
  rcases List.mem_cons.mp member with rfl | inRest
  · exact single
  · exact single_of_unflagged (plain c inRest)

theorem turn_spec (inv : ScanInv s pos) : Turned s pos b0 rest (turn s pos b0 rest) := by
  obtain ⟨list, column, line, behind⟩ :=
    entered_begun inv (codePoint b0 rest (wtf8ByteSequenceLength b0))
  unfold turn
  dsimp only
  generalize (s.beginLine pos).beginTable (codePoint b0 rest (wtf8ByteSequenceLength b0)) pos = s1
    at list column line behind ⊢
  split
  · next columns =>
    obtain ⟨s2, isExtended, entered⟩ := entered_extended inv list column line (behind columns)
    rw [isExtended]
    exact finishTurn_turned inv entered rfl
  · next noColumns =>
    have entered : Entered s pos s1 := ⟨list, column, line, fun columns => absurd columns noColumns⟩
    split
    · next printable =>
      have nonzero : codePoint b0 rest (wtf8ByteSequenceLength b0) ≠ 0 := by omega
      have single := single_of_ascii nonzero (by omega)
      rw [single] at printable ⊢
      cases found : indexFrom (b0 :: rest) 1 with
      | some j =>
          obtain ⟨moved, inside, plain⟩ := indexFrom_some single found
          refine .on moved inside ?_ (entered.advance inv moved moved)
          conv_lhs => rw [← List.take_append_drop j (b0 :: rest)]
          exact wholeSequences_append plain
      | none =>
          have plain := indexFrom_none single found
          have positive : 0 < (b0 :: rest).length := Nat.succ_pos _
          have inside : (b0 :: rest).length ≤ (b0 :: rest).length := Nat.le_refl _
          have whole : WholeSequences (b0 :: rest) ↔
              WholeSequences ((b0 :: rest).drop (b0 :: rest).length) := by
            rw [List.drop_length]
            conv_lhs => rw [← List.append_nil (b0 :: rest)]
            exact wholeSequences_append plain
          have turned : Turned s pos b0 rest (some ({ s1 with column := s1.column +
              (b0 :: rest).length }, (b0 :: rest).drop (b0 :: rest).length)) :=
            .on positive inside whole (entered.advance inv positive positive)
          rw [List.drop_length] at turned
          exact turned
    · exact finishTurn_turned inv entered rfl

end Turn

/-! ### The whole scan -/

theorem scanLoop_spec {contents remaining : Text} {s : Scan} {fuel : Nat}
    (enough : remaining.length ≤ fuel) (inside : remaining.length ≤ contents.length)
    (inv : ScanInv s (contents.length - remaining.length)) :
    (WholeSequences remaining →
      ∃ s', scanLoop contents fuel s remaining = some s' ∧ ScanInv s' contents.length) ∧
    (¬WholeSequences remaining → scanLoop contents fuel s remaining = none) := by
  induction fuel generalizing s remaining with
  | zero =>
      have isEmpty : remaining = [] := List.length_eq_zero_iff.mp (by omega)
      subst isEmpty
      exact ⟨fun _ => ⟨s, rfl, inv⟩, fun cut => absurd .nil cut⟩
  | succ fuel ih =>
      cases remaining with
      | nil => exact ⟨fun _ => ⟨s, rfl, inv⟩, fun cut => absurd .nil cut⟩
      | cons b0 rest =>
          have turned : Turned s (contents.length - (b0 :: rest).length) b0 rest _ := turn_spec inv
          rw [scanLoop]
          generalize turn s (contents.length - (b0 :: rest).length) b0 rest = result at turned
          cases turned with
          | cut short =>
              have isCut : ¬WholeSequences (b0 :: rest) := fun whole =>
                absurd (wholeSequences_cons_iff.mp whole).1 (Nat.not_le_of_gt short)
              exact ⟨fun whole => absurd whole isCut, fun _ => rfl⟩
          | @on next k moved fits same nextInv =>
              rw [Option.bind_eq_bind, Option.bind_some, same]
              apply ih
              · rw [List.length_drop]
                omega
              · rw [List.length_drop]
                omega
              · rw [List.length_drop]
                have place : contents.length - (b0 :: rest).length + k =
                    contents.length - ((b0 :: rest).length - k) := by omega
                rw [← place]
                exact nextInv

/-- The last line is begun, and its table extended, at the end of the source. -/
theorem last_entered {s : Scan} {pos : Nat} (inv : ScanInv s pos) :
    ∃ last, s.lastLine pos = some last ∧ Entered s pos last := by
  have begun := entered_begun inv 0
  have noTable : (s.beginLine pos).beginTable 0 pos = s.beginLine pos := if_neg (by simp)
  rw [noTable] at begun
  obtain ⟨list, column, line, behind⟩ := begun
  unfold Scan.lastLine
  dsimp only
  split
  · next columns => exact entered_extended inv list column line (behind columns)
  · next noColumns =>
    exact ⟨_, rfl, list, column, line, fun columns => absurd columns noColumns⟩

/-- The scan of a source gives rows when every sequence of bytes is there, and then the rows begin
further and further on, the first one at 0. -/
theorem generateIn_total (contents : Text) :
    (∃ rows, generateIn contents = some rows ∧
      (rows.map LineOffsetTable.byteOffsetToStartOfLine).head? = some 0 ∧
      (rows.map LineOffsetTable.byteOffsetToStartOfLine).Pairwise (· < ·)) ↔
      WholeSequences contents := by
  have start : ScanInv Scan.start (contents.length - contents.length) := by
    rw [Nat.sub_self]
    exact scanInv_start
  obtain ⟨ends, leaves⟩ := scanLoop_spec (Nat.le_refl _) (Nat.le_refl _) start
  constructor
  · rintro ⟨rows, isRows, _⟩
    by_contra cut
    rw [generateIn, leaves cut] at isRows
    cases isRows
  · intro whole
    obtain ⟨s, isScan, inv⟩ := ends whole
    obtain ⟨last, isLast, entered⟩ := last_entered inv
    refine ⟨last.list ++ [last.row], ?_, ?_⟩
    · rw [generateIn, isScan, Option.bind_eq_bind, Option.bind_some, isLast]
      rfl
    · have starts : (last.list ++ [last.row]).map LineOffsetTable.byteOffsetToStartOfLine =
          s.starts contents.length := by
        rw [List.map_append, entered.list]
        show _ ++ [last.lineByteOffset] = _
        rw [entered.line]
        rfl
      rw [starts]
      exact ⟨inv.first, inv.increasing⟩

/-- The first byte of a sequence of two bytes, and nothing behind it. -/
theorem cut_sequence_panics : generateIn [0xC3] = none := by decide +kernel

end Bunx.SourceMap
