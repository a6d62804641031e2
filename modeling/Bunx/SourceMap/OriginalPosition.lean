/-
Module: Bunx.SourceMap.OriginalPosition
Purpose: The original line and column of every character of a source in UTF-8: the line is right,
  and the column is where the line is ASCII so far or the character in front is not ASCII.
Trusted boundary: texts of less than 2^31 bytes
Main exports: endsLine, lineAt, position, width16, spread, CharInv, charInv_turn, original_position,
  ascii_behind_table
-/
import Bunx.SourceMap.Characters
import Bunx.SourceMap.ScanTotal
import Mathlib.Data.List.TakeWhile

namespace Bunx.SourceMap

open TextOffset Bunx.Lib.Utf8

/-! ### Lines of characters -/

def isAscii (c : Char) : Bool := c.toNat ≤ 0x7F

/-- `\n`, U+2028, U+2029, and `\r` where no `\n` is behind it. -/
def endsLine (c : Char) (next : Option Char) : Bool :=
  c.toNat = 0x0A || c.toNat = 0x2028 || c.toNat = 0x2029 ||
    (c.toNat = 0x0D && next.map Char.toNat ≠ some 0x0A)

/-- The number of the line, and what is on it so far, behind the characters `done` of a text that
goes on with `rest`. -/
def lineAt : Nat × List Char → List Char → List Char → Nat × List Char
  | place, [], _ => place
  | (line, soFar), c :: done, rest =>
      if endsLine c (done ++ rest).head? then lineAt (line + 1, []) done rest
      else lineAt (line, soFar ++ [c]) done rest

def position (done rest : List Char) : Nat × List Char := lineAt (0, []) done rest

/-- The units of a text in UTF-16. -/
def width16 (chars : List Char) : Nat := (chars.map units).sum

theorem width16_append (front behind : List Char) :
    width16 (front ++ behind) = width16 front + width16 behind := by
  rw [width16, List.map_append, List.sum_append, width16, width16]

theorem width16_cons (c : Char) (chars : List Char) :
    width16 (c :: chars) = units c + width16 chars := by
  simp [width16]

theorem units_pos (c : Char) : 0 < units c := by
  unfold units
  split
  · exact Nat.two_pos
  · exact Nat.one_pos

theorem width16_singleton (c : Char) : width16 [c] = units c := by
  simp [width16]

theorem units_ascii {c : Char} (ascii : isAscii c = true) : units c = 1 := by
  have small : c.toNat ≤ 0x7F := of_decide_eq_true ascii
  exact if_neg (by omega)

theorem width16_ascii {chars : List Char} (ascii : ∀ c ∈ chars, isAscii c = true) :
    width16 chars = chars.length := by
  induction chars with
  | nil => rfl
  | cons c chars ih =>
      have one := units_ascii (ascii c (List.mem_cons_self ..))
      have rest := ih fun d member => ascii d (List.mem_cons_of_mem _ member)
      rw [width16_cons, one, rest, List.length_cons, Nat.add_comm]

theorem encode_ascii_length {chars : List Char} (ascii : ∀ c ∈ chars, isAscii c = true) :
    (encode chars).length = chars.length := by
  induction chars with
  | nil => rfl
  | cons c chars ih =>
      have one : c.toNat ≤ 0x7F := of_decide_eq_true (ascii c (List.mem_cons_self ..))
      have rest := ih fun d member => ascii d (List.mem_cons_of_mem _ member)
      rw [encode_cons, encodeChar_one one, List.length_append, rest, List.length_cons,
        List.length_cons, List.length_nil, Nat.add_comm]

section LineAt

variable {place : Nat × List Char} {c : Char} {done behind rest : List Char}

theorem lineAt_append : lineAt place (done ++ behind) rest =
    lineAt (lineAt place done (behind ++ rest)) behind rest := by
  induction done generalizing place with
  | nil => rfl
  | cons c done ih =>
      obtain ⟨line, soFar⟩ := place
      rw [List.cons_append, lineAt, lineAt, List.append_assoc]
      split
      · exact ih
      · exact ih

theorem position_ends (ends : endsLine c rest.head? = true) :
    position (done ++ [c]) rest = ((position done (c :: rest)).1 + 1, []) := by
  unfold position
  rw [lineAt_append, List.singleton_append]
  generalize lineAt (0, []) done (c :: rest) = place
  obtain ⟨line, soFar⟩ := place
  rw [lineAt, List.nil_append, if_pos ends]
  rfl

theorem position_stays (stays : endsLine c rest.head? = false) :
    position (done ++ [c]) rest =
      ((position done (c :: rest)).1, (position done (c :: rest)).2 ++ [c]) := by
  unfold position
  rw [lineAt_append, List.singleton_append]
  generalize lineAt (0, []) done (c :: rest) = place
  obtain ⟨line, soFar⟩ := place
  rw [lineAt, List.nil_append, if_neg (by rw [stays]; exact Bool.false_ne_true)]
  rfl

end LineAt

/-! ### The table of a line -/

/-- The columns behind the characters of a text, for each of their bytes. -/
def spread : Nat → List Char → List Nat
  | _, [] => []
  | column, c :: chars =>
      List.replicate (String.utf8EncodeChar c).length (column + units c) ++
        spread (column + units c) chars

theorem spread_append (column : Nat) (front behind : List Char) :
    spread column (front ++ behind) =
      spread column front ++ spread (column + width16 front) behind := by
  induction front generalizing column with
  | nil => rfl
  | cons c front ih =>
      rw [List.cons_append, spread, spread, ih, List.append_assoc, width16_cons,
        Nat.add_assoc]

theorem spread_length (column : Nat) (chars : List Char) :
    (spread column chars).length = (encode chars).length := by
  induction chars generalizing column with
  | nil => rfl
  | cons c chars ih =>
      rw [spread, encode_cons, List.length_append, List.length_append, List.length_replicate,
        ih]

theorem spread_concat (column : Nat) (chars : List Char) (c : Char) :
    spread column (chars ++ [c]) = spread column chars ++
      List.replicate (String.utf8EncodeChar c).length (column + width16 (chars ++ [c])) := by
  rw [spread_append, spread, spread, List.append_nil, width16_append, width16_singleton,
    Nat.add_assoc]

theorem encode_concat_length (chars : List Char) (c : Char) :
    (encode (chars ++ [c])).length = (encode chars).length + (String.utf8EncodeChar c).length := by
  rw [encode_append, encode_singleton, List.length_append]

/-! ### Looking up columns -/

/-- The column of a byte of a line, as a row has it. -/
def columnAt (first : Nat) (columns : List Nat) (byte : Nat) : Option Nat :=
  if byte ≥ first ∧ columns ≠ [] then columns[byte - first]? else some byte

/-- The column that is found behind `front` on a line. It is one too small behind an ASCII
character where there is another one in front. -/
def shown (front : List Char) : Nat :=
  if front.all isAscii then width16 front
  else if front.getLast?.any isAscii then width16 front - 1
  else width16 front

/-- The table of a line, as far as its last character. -/
inductive LineTable (first : Nat) (columns : List Nat) : Nat → List Char → Prop
  | ascii {columnByteOffset : Nat} {line : List Char} (plain : ∀ c ∈ line, isAscii c = true)
      (none : columns = []) : LineTable first columns columnByteOffset line
  | wide {front known : List Char} {last : Char} (plain : ∀ c ∈ front, isAscii c = true)
      (begins : ∀ c ∈ (known ++ [last]).head?, isAscii c = false) (isFirst : first = front.length)
      (isColumns : columns = front.length :: front.length :: spread front.length known) :
      LineTable first columns ((encode (front ++ known)).length + 1) (front ++ known ++ [last])

section Lookup

variable {c last : Char} {front : List Char}

theorem char_bytes (c : Char) : 0 < (String.utf8EncodeChar c).length := by
  rw [String.length_utf8EncodeChar]
  exact c.utf8Size_pos

theorem wide_bytes (wide : isAscii c = false) : 2 ≤ (String.utf8EncodeChar c).length := by
  have notAscii : 0x7F < c.toNat := by
    rw [isAscii, decide_eq_false_iff_not] at wide
    omega
  obtain ⟨first, tail, sequence⟩ := sequence_of_char notAscii
  have several := sequence.several
  rw [sequence.bytes, List.length_cons]
  omega

theorem ascii_bytes (ascii : isAscii c = true) : (String.utf8EncodeChar c).length = 1 := by
  rw [encodeChar_one (of_decide_eq_true ascii)]
  rfl

/-- The entry that is found behind a text that begins with a character that is not ASCII. -/
theorem spread_entry {known : List Char} (column : Nat)
    (begins : ∀ c ∈ (known ++ [last]).head?, isAscii c = false) (more : List Char) :
    ∃ entry, (column :: column :: spread column (known ++ [last] ++ more))[
        (encode (known ++ [last])).length]? = some entry ∧
      entry =
        if isAscii last then column + width16 known else column + width16 (known ++ [last]) := by
  have knownLength := spread_length column known
  refine ⟨_, ?_, rfl⟩
  rw [spread_append, spread_concat, encode_concat_length]
  split
  · next ascii =>
    -- one byte, so that the entry is that of the character in front of it
    have one := ascii_bytes ascii
    cases isKnown : known.getLast? with
    | none =>
        rw [List.getLast?_eq_none_iff.mp isKnown, List.nil_append] at begins
        have wide := begins last rfl
        rw [ascii] at wide
        cases wide
    | some before =>
        obtain ⟨init, rfl⟩ := List.getLast?_eq_some_iff.mp isKnown
        have positive := char_bytes before
        have beforeLengths := encode_concat_length init before
        have initLength := spread_length column init
        have place : (encode (init ++ [before])).length + (String.utf8EncodeChar last).length =
            ((encode init).length + ((String.utf8EncodeChar before).length - 1)) + 1 + 1 := by
          omega
        rw [place, List.getElem?_cons_succ, List.getElem?_cons_succ, List.append_assoc,
          List.getElem?_append_left (by omega), spread_concat,
          List.getElem?_append_right (by omega), initLength, Nat.add_sub_cancel_left,
          List.getElem?_replicate, if_pos (by omega)]
  · next notAscii =>
    have two := wide_bytes (by simpa using notAscii)
    have place : (encode known).length + (String.utf8EncodeChar last).length =
        ((encode known).length + ((String.utf8EncodeChar last).length - 2)) + 1 + 1 := by omega
    rw [place, List.getElem?_cons_succ, List.getElem?_cons_succ, List.append_assoc,
      List.getElem?_append_right (by omega), knownLength, Nat.add_sub_cancel_left,
      List.getElem?_append_left (by rw [List.length_replicate]; omega),
      List.getElem?_replicate, if_pos (by omega)]

theorem shown_ascii (plain : ∀ c ∈ front, isAscii c = true) : shown front = front.length := by
  have all : front.all isAscii = true := List.all_eq_true.mpr plain
  rw [shown, if_pos all, width16_ascii plain]

/-- What is found behind an ASCII front and a text that begins with a character that is not
ASCII. -/
theorem shown_wide {known : List Char} (plain : ∀ c ∈ front, isAscii c = true)
    (begins : ∀ c ∈ (known ++ [last]).head?, isAscii c = false) :
    shown (front ++ (known ++ [last])) =
      if isAscii last then front.length + width16 known
      else front.length + width16 (known ++ [last]) := by
  have notAll : ¬(front ++ (known ++ [last])).all isAscii = true := by
    intro all
    cases known with
    | nil =>
        have wide := begins last rfl
        rw [List.all_eq_true.mp all last (by simp)] at wide
        cases wide
    | cons c known =>
        have wide := begins c rfl
        rw [List.all_eq_true.mp all c (by simp)] at wide
        cases wide
  have isLast : (front ++ (known ++ [last])).getLast? = some last := by
    rw [← List.append_assoc, List.getLast?_concat]
  have sum : width16 (front ++ (known ++ [last])) =
      front.length + (width16 known + units last) := by
    rw [width16_append, width16_append, width16_ascii plain, width16_singleton]
  rw [shown, if_neg notAll, isLast, sum, width16_append, width16_singleton]
  show (if isAscii last = true then _ else _) = _
  split
  · next ascii =>
    rw [units_ascii ascii]
    omega
  · rfl

/-- What is found for the characters of a line, with more behind its table. -/
theorem LineTable.columnAt_eq {first columnByteOffset : Nat} {columns : List Nat}
    {line back : List Char} (table : LineTable first columns columnByteOffset line)
    (isLine : line = front ++ c :: back) {extra : List Nat} (noExtra : columns = [] → extra = []) :
    columnAt first (columns ++ extra) (encode front).length = some (shown front) := by
  cases table with
  | ascii plain none =>
      have plainFront : ∀ c ∈ front, isAscii c = true := fun d member =>
        plain d (by rw [isLine]; exact List.mem_append_left _ member)
      rw [none, noExtra none, columnAt, if_neg (fun both => both.2 rfl), shown_ascii plainFront,
        encode_ascii_length plainFront]
  | @wide ascii known last plain begins isFirst isColumns =>
      have notEmpty : columns ++ extra ≠ [] := by
        rw [isColumns]
        exact List.cons_ne_nil _ _
      have asciiLength := encode_ascii_length plain
      -- where the table begins
      have atFirst : columnAt first (columns ++ extra) (encode ascii).length =
          some (shown ascii) := by
        rw [columnAt, asciiLength, isFirst, if_pos ⟨Nat.le_refl _, notEmpty⟩, Nat.sub_self,
          isColumns, shown_ascii plain]
        rfl
      rw [List.append_assoc] at isLine
      rcases List.append_eq_append_iff.mp isLine with
        ⟨behind, isFront, isRest⟩ | ⟨more, isAscii', _⟩
      · cases isBehind : behind.getLast? with
        | none =>
            rw [List.getLast?_eq_none_iff.mp isBehind, List.append_nil] at isFront
            rw [isFront]
            exact atFirst
        | some inner =>
            obtain ⟨init, rfl⟩ := List.getLast?_eq_some_iff.mp isBehind
            obtain ⟨more, isKnown⟩ : ∃ more, known = init ++ [inner] ++ more := by
              have cut := List.dropLast_append_getLast (List.cons_ne_nil c back)
              rw [← cut, ← List.append_assoc] at isRest
              exact ⟨_, (List.append_inj' isRest rfl).1⟩
            have beginsInner : ∀ d ∈ (init ++ [inner]).head?, isAscii d = false := by
              intro d member
              apply begins d
              rw [isRest, List.head?_append_of_ne_nil _ (by simp)]
              exact member
            obtain ⟨entry, isEntry, value⟩ := spread_entry ascii.length beginsInner more
            have inside := (List.getElem?_eq_some_iff.mp isEntry).1
            have byte : (encode front).length =
                ascii.length + (encode (init ++ [inner])).length := by
              rw [isFront, encode_append, List.length_append, asciiLength]
            rw [columnAt, byte, isFirst, if_pos ⟨Nat.le_add_right _ _, notEmpty⟩,
              Nat.add_sub_cancel_left, isColumns, isKnown, List.getElem?_append_left inside,
              isEntry, value, isFront, shown_wide plain beginsInner]
      · cases more with
        | nil =>
            rw [List.append_nil] at isAscii'
            rw [← isAscii']
            exact atFirst
        | cons d more =>
            have plainFront : ∀ d ∈ front, isAscii d = true := fun d member =>
              plain d (by rw [isAscii']; exact List.mem_append_left _ member)
            have before : ¬(front.length ≥ first ∧ columns ++ extra ≠ []) := by
              rw [isFirst, isAscii', List.length_append, List.length_cons]
              omega
            rw [columnAt, encode_ascii_length plainFront, if_neg before, shown_ascii plainFront]

end Lookup

/-! ### Characters of the scan -/

section Reading

variable {c : Char} {rest : List Char}

/-- The bytes of a character, as a turn reads them. -/
theorem char_read (c : Char) (text : Text) : ∃ b0 tail, String.utf8EncodeChar c = b0 :: tail ∧
    wtf8ByteSequenceLength b0 = tail.length + 1 ∧
      codePoint b0 (tail ++ text) (tail.length + 1) = c.toNat := by
  by_cases ascii : c.toNat ≤ 0x7F
  · have single : ∀ n : Fin 128, wtf8ByteSequenceLength (UInt8.ofNat n) = 1 := by decide +kernel
    exact ⟨_, _, encodeChar_one ascii, single ⟨c.toNat, Nat.lt_succ_of_le ascii⟩, ascii_byte ascii⟩
  · obtain ⟨first, tail, sequence⟩ := sequence_of_char (Nat.lt_of_not_le ascii)
    have several := sequence.several
    refine ⟨first, tail, sequence.bytes, sequence.announced, ?_⟩
    rw [codePoint, if_neg (by omega), sequence.decoded]
    rfl

/-- Printable ASCII. -/
def isPlain (c : Char) : Bool := 0x20 ≤ c.toNat && c.toNat ≤ 0x7F

theorem ascii_of_plain (plain : isPlain c = true) : isAscii c = true := by
  simp only [isPlain, Bool.and_eq_true, decide_eq_true_eq] at plain
  exact decide_eq_true plain.2

theorem unflagged_of_plain (plain : isPlain c = true) :
    isNewlineOrNonAscii (UInt8.ofNat c.toNat) = false := by
  simp only [isPlain, Bool.and_eq_true, decide_eq_true_eq] at plain
  have all : ∀ n : Fin 128, 0x20 ≤ n.val → isNewlineOrNonAscii (UInt8.ofNat n) = false := by
    decide +kernel
  exact all ⟨c.toNat, Nat.lt_succ_of_le plain.2⟩ plain.1

/-- The first byte of a character that is not printable ASCII is looked for. -/
theorem flagged_of_notPlain (notPlain : isPlain c = false) :
    ∃ b0 tail, String.utf8EncodeChar c = b0 :: tail ∧ isNewlineOrNonAscii b0 = true := by
  by_cases ascii : c.toNat ≤ 0x7F
  · have all : ∀ n : Fin 128, ¬0x20 ≤ n.val → isNewlineOrNonAscii (UInt8.ofNat n) = true := by
      decide +kernel
    refine ⟨_, _, encodeChar_one ascii, all ⟨c.toNat, Nat.lt_succ_of_le ascii⟩ fun low => ?_⟩
    rw [isPlain, decide_eq_true ascii, decide_eq_true low] at notPlain
    cases notPlain
  · obtain ⟨first, tail, sequence⟩ := sequence_of_char (Nat.lt_of_not_le ascii)
    have large := sequence.large first (List.mem_cons_self ..)
    refine ⟨first, tail, sequence.bytes, ?_⟩
    rw [isNewlineOrNonAscii, Bool.or_eq_true, decide_eq_true_eq]
    left
    rw [gt_iff_lt, UInt8.lt_iff_toNat_lt]
    rw [UInt8.le_iff_toNat_le] at large
    exact large

theorem encode_plain {run : List Char} (plain : ∀ c ∈ run, isPlain c = true) :
    ∀ b ∈ encode run, isNewlineOrNonAscii b = false := by
  intro b member
  obtain ⟨c, isIn, inBytes⟩ := List.mem_flatMap.mp member
  have ascii := ascii_of_plain (plain c isIn)
  rw [encodeChar_one (of_decide_eq_true ascii)] at inBytes
  rw [List.mem_singleton.mp inBytes]
  exact unflagged_of_plain (plain c isIn)

/-- A text is a run of printable ASCII, and what is behind it. -/
theorem run_cut (chars : List Char) : ∃ run behind, chars = run ++ behind ∧
    (∀ c ∈ run, isPlain c = true) ∧ ∀ c ∈ behind.head?, isPlain c = false := by
  refine ⟨chars.takeWhile isPlain, chars.dropWhile isPlain,
    List.takeWhile_append_dropWhile.symm, fun c member => List.mem_takeWhile_imp member, ?_⟩
  intro c isHead
  have notPlain := List.head?_dropWhile_not isPlain chars
  rw [isHead] at notPlain
  exact notPlain

/-- The index of what is looked for, behind a run of printable ASCII. -/
theorem index_run {run behind : List Char} (plain : ∀ c ∈ run, isPlain c = true)
    (stops : ∀ c ∈ behind.head?, isPlain c = false) :
    indexOfNewlineOrNonAscii (encode (run ++ behind)) =
      if behind = [] then none else some run.length := by
  have noneFound : (encode run).findIdx? isNewlineOrNonAscii = none :=
    List.findIdx?_eq_none_iff.mpr (encode_plain plain)
  have runLength : (encode run).length = run.length :=
    encode_ascii_length fun c member => ascii_of_plain (plain c member)
  rw [encode_append, indexOfNewlineOrNonAscii, List.findIdx?_append, noneFound, Option.none_or,
    runLength]
  cases behind with
  | nil => rfl
  | cons c behind =>
      obtain ⟨b0, tail, isBytes, flagged⟩ := flagged_of_notPlain (stops c rfl)
      rw [encode_cons, isBytes, List.cons_append, List.findIdx?_cons, flagged]
      simp

theorem head_feed : (encode rest)[0]? = some 0x0A ↔ rest.head?.map Char.toNat = some 0x0A := by
  cases rest with
  | nil => simp [encode_nil]
  | cons c rest =>
      by_cases ascii : c.toNat ≤ 0x7F
      · rw [encode_cons, encodeChar_one ascii]
        have same : UInt8.ofNat c.toNat = 0x0A ↔ c.toNat = 0x0A := by
          rw [← UInt8.toNat_inj, ascii_byte ascii]
          rfl
        simpa using same
      · obtain ⟨first, tail, sequence⟩ := sequence_of_char (Nat.lt_of_not_le ascii)
        have large := sequence.large first (List.mem_cons_self ..)
        have notFeed : first ≠ 0x0A := by
          rintro rfl
          exact absurd large (by decide)
        rw [encode_cons, sequence.bytes]
        simp only [List.cons_append, List.getElem?_cons_zero, Option.some.injEq, List.head?_cons,
          Option.map_some]
        exact iff_of_false notFeed (by omega)

end Reading

/-! ### The scan, character by character -/

/-- What a table has for a place on one of its lines. -/
structure RightAt (list : List LineOffsetTable) (starts : List Nat) (done tail : List Char)
    (row : LineOffsetTable) : Prop where
  isRow : list[(position done tail).1]? = some row
  start : row.byteOffsetToStartOfLine + (encode (position done tail).2).length =
    (encode done).length
  column : columnAt row.byteOffsetToFirstNonAscii row.columnsForNonAscii
    (encode (position done tail).2).length = some (shown (position done tail).2)
  before : ∀ next ∈ starts[(position done tail).1 + 1]?, (encode done).length < next

/-- What holds of the scan behind the characters `done`. -/
structure CharInv (s : Scan) (done rest : List Char) : Prop where
  rows : s.list.length = (position done rest).1
  column : s.column = width16 (position done rest).2
  start : s.lineStart (encode done).length + (encode (position done rest).2).length =
    (encode done).length
  table : LineTable s.byteOffsetToFirstNonAscii s.columnsForNonAscii s.columnByteOffset
    (position done rest).2
  past : ∀ front c back, done = front ++ c :: back →
    (position front (c :: back ++ rest)).1 < s.list.length →
      ∃ row, RightAt s.list (s.starts (encode done).length) front (c :: back ++ rest) row

section CharInv

variable {s s' : Scan} {done rest : List Char} {c : Char}

theorem charInv_start (chars : List Char) : CharInv Scan.start [] chars where
  rows := rfl
  column := rfl
  start := rfl
  table := .ascii (fun _ member => absurd member (List.not_mem_nil)) rfl
  past front c back isDone _ := by
    have lengths := congrArg List.length isDone
    rw [List.length_append, List.length_cons, List.length_nil] at lengths
    omega

/-- Lines are never taken back, and a place on the same line is further on. -/
theorem lineAt_same (place : Nat × List Char) (done rest : List Char) :
    place.1 ≤ (lineAt place done rest).1 ∧
      ((lineAt place done rest).1 = place.1 → (lineAt place done rest).2 = place.2 ++ done) := by
  induction done generalizing place with
  | nil => exact ⟨Nat.le_refl _, fun _ => by rw [List.append_nil]; rfl⟩
  | cons c done ih =>
      obtain ⟨line, soFar⟩ := place
      rw [lineAt]
      split
      · have more : line + 1 ≤ (lineAt (line + 1, []) done rest).1 :=
          (ih (line + 1, [])).1
        exact ⟨Nat.le_of_succ_le more, fun same => absurd same (by dsimp only; omega)⟩
      · obtain ⟨more, onLine⟩ := ih (line, soFar ++ [c])
        refine ⟨more, fun same => ?_⟩
        rw [onLine same, List.append_assoc]
        rfl

/-- A place in front of another one. -/
theorem position_front (front : List Char) (c : Char) (back rest : List Char) :
    (position front (c :: back ++ rest)).1 ≤ (position (front ++ c :: back) rest).1 ∧
      ((position (front ++ c :: back) rest).1 = (position front (c :: back ++ rest)).1 →
        (position (front ++ c :: back) rest).2 =
          (position front (c :: back ++ rest)).2 ++ c :: back) := by
  unfold position
  rw [lineAt_append]
  exact lineAt_same _ _ _

theorem concat_split {front back : List Char} {d : Char} (same : done ++ [c] = front ++ d :: back) :
    (done = front ∧ c = d ∧ back = []) ∨
      ∃ init, back = init ++ [c] ∧ done = front ++ d :: init := by
  rcases List.eq_nil_or_concat back with rfl | ⟨init, last, rfl⟩
  · obtain ⟨isDone, isLast⟩ := List.append_inj' same rfl
    exact .inl ⟨isDone, List.head_eq_of_cons_eq isLast, rfl⟩
  · rw [List.concat_eq_append] at same ⊢
    rw [← List.cons_append, ← List.append_assoc] at same
    obtain ⟨isDone, isLast⟩ := List.append_inj' same rfl
    obtain rfl := List.head_eq_of_cons_eq isLast
    exact .inr ⟨init, rfl, isDone⟩

/-- A character that ends no line. -/
theorem CharInv.stay (inv : CharInv s done (c :: rest)) (stays : endsLine c rest.head? = false)
    (list : s'.list = s.list) (column : s'.column = s.column + units c)
    (line : s'.lineByteOffset = s.lineStart (encode done).length)
    (table : LineTable s'.byteOffsetToFirstNonAscii s'.columnsForNonAscii s'.columnByteOffset
      ((position done (c :: rest)).2 ++ [c])) :
    CharInv s' (done ++ [c]) rest := by
  have next : position (done ++ [c]) rest = _ := position_stays stays
  have positive := units_pos c
  have sameStart (pos : Nat) : s'.lineStart pos = s.lineStart (encode done).length := by
    rw [Scan.lineStart, if_neg (by omega), line]
  constructor
  · rw [next, list]
    exact inv.rows
  · rw [next, column, inv.column]
    show _ = width16 (_ ++ [c])
    rw [width16_append, width16_singleton]
  · have start := inv.start
    rw [next, sameStart]
    show _ + (encode (_ ++ [c])).length = _
    rw [encode_concat_length, encode_concat_length]
    omega
  · rw [next]
    exact table
  · intro front d back isDone isPast
    rw [list] at isPast ⊢
    have starts : s'.starts (encode (done ++ [c])).length = s.starts (encode done).length := by
      rw [Scan.starts, Scan.starts, sameStart, list]
    rw [starts]
    rcases concat_split isDone with ⟨rfl, rfl, rfl⟩ | ⟨init, rfl, isFront⟩
    · exact absurd isPast (Nat.not_lt_of_ge (Nat.le_of_eq inv.rows))
    · have tail : d :: (init ++ [c]) ++ rest = d :: init ++ c :: rest := by simp
      rw [tail] at isPast ⊢
      exact inv.past front d init isFront isPast

/-- A character that ends the line. -/
theorem CharInv.end (inv : CharInv s done (c :: rest)) (ends : endsLine c rest.head? = true)
    (list : s'.list = s.list) (line : s'.lineByteOffset = s.lineStart (encode done).length)
    (table : LineTable s'.byteOffsetToFirstNonAscii s'.columnsForNonAscii s'.columnByteOffset
      ((position done (c :: rest)).2 ++ [c])) :
    CharInv s'.endLine (done ++ [c]) rest := by
  have next : position (done ++ [c]) rest = _ := position_ends ends
  have allRows : s'.endLine.list = s.list ++ [s'.row] := by
    rw [← list]
    rfl
  have starts : s'.endLine.starts (encode (done ++ [c])).length =
      s.starts (encode done).length ++ [(encode (done ++ [c])).length] := by
    show (s'.list ++ [s'.row]).map LineOffsetTable.byteOffsetToStartOfLine ++ [_] = _
    rw [List.map_append, list]
    show _ ++ [s'.lineByteOffset] ++ _ = _
    rw [line]
    rfl
  have startsLength : (s.starts (encode done).length).length = s.list.length + 1 := by
    simp [Scan.starts]
  have rows := inv.rows
  -- a place on the line that ends here
  have onLine (front : List Char) (d : Char) (back : List Char)
      (same : (position front (d :: back ++ rest)).1 = s.list.length)
      (isLine : (position done (c :: rest)).2 ++ [c] =
        (position front (d :: back ++ rest)).2 ++ d :: back)
      (isDone : done ++ [c] = front ++ d :: back) :
      ∃ row, RightAt s'.endLine.list (s'.endLine.starts (encode (done ++ [c])).length) front
        (d :: back ++ rest) row := by
    refine ⟨s'.row, ?_, ?_, ?_, ?_⟩
    · rw [allRows, same, List.getElem?_append_right (Nat.le_refl _), Nat.sub_self]
      rfl
    · have start := inv.start
      have lineLength := congrArg (fun chars => (encode chars).length) isLine
      have doneLength := congrArg (fun chars => (encode chars).length) isDone
      simp only [encode_append, List.length_append] at lineLength doneLength
      show s'.lineByteOffset + _ = _
      rw [line]
      omega
    · have found := table.columnAt_eq isLine (fun _ => rfl)
      rw [List.append_nil] at found
      exact found
    · intro next isNext
      rw [same, starts, List.getElem?_append_right (by omega), startsLength, Nat.sub_self] at isNext
      cases isNext
      have positive := char_bytes d
      rw [isDone, encode_append, encode_cons, List.length_append, List.length_append]
      omega
  constructor
  · rw [next, allRows, List.length_append, rows]
    rfl
  · rw [next]
    rfl
  · rw [next]
    rfl
  · rw [next]
    exact .ascii (fun _ member => absurd member (List.not_mem_nil)) rfl
  · intro front d back isDone isPast
    rw [allRows, List.length_append, List.length_singleton] at isPast
    rcases concat_split isDone with ⟨rfl, rfl, rfl⟩ | ⟨init, rfl, isFront⟩
    · exact onLine done c [] rows.symm rfl isDone
    · have tail : d :: (init ++ [c]) ++ rest = d :: init ++ c :: rest := by simp
      obtain ⟨_, sameLine⟩ := position_front front d init (c :: rest)
      rw [← isFront] at sameLine
      by_cases isNew : (position front (d :: (init ++ [c]) ++ rest)).1 = s.list.length
      · apply onLine front d (init ++ [c]) isNew _ isDone
        rw [tail] at isNew ⊢
        rw [sameLine (rows.symm.trans isNew.symm), List.append_assoc]
        rfl
      · -- a line that has ended before
        rw [tail] at isNew isPast ⊢
        obtain ⟨row, right⟩ := inv.past front d init isFront (by omega)
        refine ⟨row, ?_, right.start, right.column, ?_⟩
        · rw [allRows, List.getElem?_append_left (by omega)]
          exact right.isRow
        · rw [starts, List.getElem?_append_left (by omega)]
          exact right.before

/-- Beginning a line changes nothing but where it begins. -/
theorem beginLine_eq (s : Scan) (pos : Nat) :
    s.beginLine pos = { s with lineByteOffset := s.lineStart pos } := by
  unfold Scan.beginLine Scan.lineStart
  split
  · rfl
  · rfl

/-- A scan that has entered the character behind `done`. -/
structure CharEntered (s : Scan) (done : List Char) (c : Char) (rest : List Char) (s' : Scan) :
    Prop where
  list : s'.list = s.list
  column : s'.column = s.column
  line : s'.lineByteOffset = s.lineStart (encode done).length
  table : LineTable s'.byteOffsetToFirstNonAscii s'.columnsForNonAscii s'.columnByteOffset
    ((position done (c :: rest)).2 ++ [c])

theorem CharInv.enter (inv : CharInv s done (c :: rest)) :
    (((s.beginLine (encode done).length).beginTable c.toNat (encode done).length =
        s.beginLine (encode done).length ∧ s.columnsForNonAscii = [] ∧
      CharEntered s done c rest (s.beginLine (encode done).length))) ∨
    (((s.beginLine (encode done).length).beginTable c.toNat
        (encode done).length).columnsForNonAscii ≠ [] ∧
      ∃ s', ((s.beginLine (encode done).length).beginTable c.toNat
          (encode done).length).extendTable (encode done).length = some s' ∧
        CharEntered s done c rest s') := by
  have start := inv.start
  have column := inv.column
  have table := inv.table
  rw [beginLine_eq]
  obtain ⟨columnByteOffset, isColumn⟩ : ∃ n, s.columnByteOffset = n := ⟨_, rfl⟩
  obtain ⟨line, isLine⟩ : ∃ line, (position done (c :: rest)).2 = line := ⟨_, rfl⟩
  rw [isColumn, isLine] at table
  rw [isLine] at start column
  cases table with
  | ascii plain none =>
      have lineLength := encode_ascii_length plain
      by_cases ascii : isAscii c = true
      · left
        have small : c.toNat ≤ 0x7F := of_decide_eq_true ascii
        refine ⟨if_neg fun both => by omega, none, rfl, rfl, rfl, ?_⟩
        apply LineTable.ascii _ none
        intro d member
        rw [isLine] at member
        rcases List.mem_append.mp member with inLine | isLast
        · exact plain d inLine
        · rwa [List.mem_singleton.mp isLast]
      · right
        have large : c.toNat > 0x7F := by
          have notSmall : ¬c.toNat ≤ 0x7F := fun small => ascii (decide_eq_true small)
          omega
        have begins : ({ s with lineByteOffset := s.lineStart (encode done).length } :
            Scan).beginTable c.toNat (encode done).length =
            { s with
              lineByteOffset := s.lineStart (encode done).length
              columnsForNonAscii := [s.column]
              columnByteOffset := (encode done).length - s.lineStart (encode done).length
              byteOffsetToFirstNonAscii :=
                (encode done).length - s.lineStart (encode done).length } :=
          if_pos ⟨large, none⟩
        have bytes : (encode done).length - s.lineStart (encode done).length = line.length := by
          omega
        rw [begins, bytes]
        refine ⟨List.cons_ne_nil _ _, _, if_neg (by dsimp only; omega), rfl, rfl, rfl, ?_⟩
        dsimp only
        rw [bytes, Nat.sub_self, isLine, column, width16_ascii plain]
        have wide : LineTable line.length (line.length :: line.length :: spread line.length [])
            ((encode (line ++ [])).length + 1) (line ++ [] ++ [c]) := by
          refine .wide plain ?_ rfl rfl
          intro d isHead
          cases isHead
          exact Bool.eq_false_iff.mpr ascii
        rw [List.append_nil, lineLength] at wide
        exact wide
  | @wide front known last plain begins isFirst isColumns =>
      right
      have nonempty : s.columnsForNonAscii ≠ [] := by
        rw [isColumns]
        exact List.cons_ne_nil _ _
      have noBegin : ({ s with lineByteOffset := s.lineStart (encode done).length } :
          Scan).beginTable c.toNat (encode done).length =
          { s with lineByteOffset := s.lineStart (encode done).length } :=
        if_neg fun both => nonempty both.2
      have positive := char_bytes last
      rw [encode_concat_length] at start
      rw [noBegin]
      refine ⟨nonempty, _, if_neg (by dsimp only; omega), rfl, rfl, rfl, ?_⟩
      dsimp only
      have bytes : (encode done).length - s.lineStart (encode done).length =
          (encode (front ++ (known ++ [last]))).length := by
        rw [← List.append_assoc, encode_concat_length]
        omega
      have need : (encode (front ++ (known ++ [last]))).length - s.columnByteOffset + 1 =
          (String.utf8EncodeChar last).length := by
        rw [← List.append_assoc, encode_concat_length]
        omega
      have isShown : s.column = front.length + width16 (known ++ [last]) := by
        rw [column, List.append_assoc, width16_append, width16_ascii plain]
      rw [bytes, need, isLine, isColumns, isShown, List.append_assoc front, List.cons_append,
        List.cons_append, ← spread_concat]
      apply LineTable.wide plain _ isFirst rfl
      intro d isHead
      apply begins d
      rwa [List.head?_append_of_ne_nil _ (by simp)] at isHead

theorem endsLine_iff {next : Option Char} : endsLine c next = true ↔
    (c.toNat = 0x0D ∨ c.toNat = 0x0A ∨ c.toNat = 0x2028 ∨ c.toNat = 0x2029) ∧
      ¬(c.toNat = 0x0D ∧ next.map Char.toNat = some 0x0A) := by
  simp only [endsLine, Bool.or_eq_true, Bool.and_eq_true, decide_eq_true_eq]
  by_cases isReturn : c.toNat = 0x0D
  · simp [isReturn]
  · simp [isReturn, or_assoc]

/-- A turn is finished at a character. -/
theorem CharInv.finish (inv : CharInv s done (c :: rest)) (entered : CharEntered s done c rest s')
    {b0 : UInt8} {tail : Text} (bytes : String.utf8EncodeChar c = b0 :: tail) :
    ∃ next, finishTurn s' (b0 :: (tail ++ encode rest)) c.toNat (tail.length + 1) =
        some (next, encode rest) ∧ CharInv next (done ++ [c]) rest := by
  have remaining : b0 :: (tail ++ encode rest) = (b0 :: tail) ++ encode rest := rfl
  have takes (next : Scan) : takeOff next (b0 :: (tail ++ encode rest)) (tail.length + 1) =
      some (next, encode rest) := by
    rw [takeOff, if_neg (by simp), remaining, ← List.length_cons, List.drop_left]
  -- the character behind `\r` is the next one of the text
  have feed : c.toNat = 0x0D ∧ (b0 :: (tail ++ encode rest))[1]? = some 0x0A ↔
      c.toNat = 0x0D ∧ rest.head?.map Char.toNat = some 0x0A := by
    apply and_congr_right
    intro isReturn
    have single : b0 :: tail = [UInt8.ofNat c.toNat] := by
      rw [← bytes]
      exact encodeChar_one (by omega)
    rw [List.getElem?_cons_succ, (List.cons.inj single).2, List.nil_append]
    exact head_feed
  unfold finishTurn
  by_cases isBreak : c.toNat = 0x0D ∨ c.toNat = 0x0A ∨ c.toNat = 0x2028 ∨ c.toNat = 0x2029
  · rw [if_pos isBreak]
    split
    · next isReturn =>
      have stays : endsLine c rest.head? = false := by
        rw [Bool.eq_false_iff]
        exact fun ends => (endsLine_iff.mp ends).2 (feed.mp isReturn)
      have single : b0 :: tail = [UInt8.ofNat c.toNat] := by
        rw [← bytes]
        exact encodeChar_one (by omega)
      have one : units c = 1 := if_neg (by omega)
      refine ⟨{ s' with column := s'.column + 1 }, ?_, inv.stay stays entered.list
        (congrArg₂ (· + ·) entered.column one.symm) entered.line entered.table⟩
      rw [(List.cons.inj single).2]
      rfl
    · next notReturn =>
      have ends : endsLine c rest.head? = true :=
        endsLine_iff.mpr ⟨isBreak, fun both => notReturn (feed.mpr both)⟩
      exact ⟨_, takes _, inv.end ends entered.list entered.line entered.table⟩
  · rw [if_neg isBreak]
    have stays : endsLine c rest.head? = false := by
      rw [Bool.eq_false_iff]
      exact fun ends => isBreak (endsLine_iff.mp ends).1
    exact ⟨_, takes _, inv.stay stays entered.list (congrArg (· + units c) entered.column)
      entered.line entered.table⟩

/-- ASCII without line breaks. -/
def isQuiet (c : Char) : Bool := 14 ≤ c.toNat && c.toNat ≤ 127

theorem quiet_of_plain (plain : isPlain c = true) : isQuiet c = true := by
  simp only [isPlain, isQuiet, Bool.and_eq_true, decide_eq_true_eq] at plain ⊢
  omega

/-- A run of ASCII on a line without a table. -/
theorem CharInv.run {run : List Char} (inv : CharInv s done (run ++ rest))
    (quiet : ∀ c ∈ run, isQuiet c = true) (nonempty : run ≠ [])
    (noTable : s.columnsForNonAscii = []) : CharInv { s.beginLine (encode done).length with column := s.column + run.length }
      (done ++ run) rest := by
  induction run generalizing s done with
  | nil => exact absurd rfl nonempty
  | cons c run ih =>
      have isQuietFirst := quiet c (List.mem_cons_self ..)
      simp only [isQuiet, Bool.and_eq_true, decide_eq_true_eq] at isQuietFirst
      have noBegin : (s.beginLine (encode done).length).beginTable c.toNat (encode done).length =
          s.beginLine (encode done).length := if_neg fun both => by omega
      have sameTable : (s.beginLine (encode done).length).columnsForNonAscii = [] := by
        rw [beginLine_eq]
        exact noTable
      have stays : endsLine c (run ++ rest).head? = false := by
        rw [Bool.eq_false_iff]
        intro ends
        have isBreak := (endsLine_iff.mp ends).1
        omega
      have one : units c = 1 := if_neg (by omega)
      rcases inv.enter with ⟨_, _, entered⟩ | ⟨isTable, _⟩
      · have next : CharInv { s.beginLine (encode done).length with column := s.column + 1 }
            (done ++ [c]) (run ++ rest) :=
          inv.stay stays entered.list (congrArg (s.column + ·) one.symm) entered.line entered.table
        cases run with
        | nil => exact next
        | cons d run =>
            have rest' := ih next
              (fun e member => quiet e (List.mem_cons_of_mem _ member)) (List.cons_ne_nil _ _)
              sameTable
            have columns : s.column + (c :: d :: run).length =
                s.column + 1 + (d :: run).length := by
              simp only [List.length_cons]
              omega
            rw [List.append_assoc] at rest'
            rw [columns]
            exact rest'
      · rw [noBegin] at isTable
        exact absurd sameTable isTable

/-- A turn takes one character or more. -/
theorem CharInv.turn (inv : CharInv s done (c :: rest)) {b0 : UInt8} {tail : Text}
    (bytes : String.utf8EncodeChar c = b0 :: tail)
    (announced : wtf8ByteSequenceLength b0 = tail.length + 1)
    (isPoint : codePoint b0 (tail ++ encode rest) (tail.length + 1) = c.toNat) :
    ∃ next eaten behind, c :: rest = eaten ++ behind ∧ eaten ≠ [] ∧
      SourceMap.turn s (encode done).length b0 (tail ++ encode rest) =
        some (next, encode behind) ∧ CharInv next (done ++ eaten) behind := by
  unfold SourceMap.turn
  dsimp only
  rw [announced, isPoint]
  rcases inv.enter with ⟨noBegin, noTable, entered⟩ | ⟨isTable, s', isExtended, entered⟩
  · rw [noBegin]
    have sameTable : (s.beginLine (encode done).length).columnsForNonAscii = [] := by
      rw [beginLine_eq]
      exact noTable
    rw [if_neg (not_not.mpr sameTable)]
    by_cases quiet : 14 ≤ c.toNat ∧ c.toNat ≤ 127
    · rw [if_pos quiet]
      have single : b0 :: tail = [UInt8.ofNat c.toNat] := by
        rw [← bytes]
        exact encodeChar_one quiet.2
      have isTail : tail = [] := (List.cons.inj single).2
      obtain ⟨run, behind, rfl, plain, stops⟩ := run_cut rest
      have allQuiet : ∀ d ∈ c :: run, isQuiet d = true := by
        intro d member
        rcases List.mem_cons.mp member with rfl | inRun
        · exact by simpa [isQuiet] using quiet
        · exact quiet_of_plain (plain d inRun)
      have whole : CharInv { s.beginLine (encode done).length with
          column := s.column + (c :: run).length } (done ++ c :: run) behind :=
        CharInv.run inv allQuiet (List.cons_ne_nil _ _) noTable
      have runBytes : (encode run).length = run.length :=
        encode_ascii_length fun d member => ascii_of_plain (plain d member)
      have column : (s.beginLine (encode done).length).column = s.column := by rw [beginLine_eq]
      have isIndex := index_run plain stops
      rw [isTail, List.length_nil, Nat.zero_add, List.nil_append, indexFrom, List.drop_succ_cons,
        List.drop_zero, isIndex]
      refine ⟨_, c :: run, behind, rfl, List.cons_ne_nil _ _, ?_, whole⟩
      split
      · next j isFound =>
        split at isFound
        · cases isFound
        · cases isFound
          rw [encode_append, column, List.drop_succ_cons, ← runBytes, List.drop_left]
          rw [runBytes]
          rfl
      · next isFound =>
        split at isFound
        · next isEnd =>
          rw [isEnd, List.append_nil, List.length_cons, runBytes, column]
          rfl
        · cases isFound
    · rw [if_neg quiet]
      obtain ⟨next, isNext, nextInv⟩ := inv.finish entered bytes
      exact ⟨next, [c], rest, rfl, List.cons_ne_nil _ _, isNext, nextInv⟩
  · rw [if_pos isTable, isExtended]
    obtain ⟨next, isNext, nextInv⟩ := inv.finish entered bytes
    exact ⟨next, [c], rest, rfl, List.cons_ne_nil _ _, isNext, nextInv⟩

/-- The scan of the characters that are left. -/
theorem CharInv.loop {contents : Text} {fuel : Nat} (inv : CharInv s done rest)
    (isContents : contents = encode (done ++ rest)) (enough : (encode rest).length ≤ fuel) :
    ∃ last, scanLoop contents fuel s (encode rest) = some last ∧
      CharInv last (done ++ rest) [] := by
  induction fuel generalizing s done rest with
  | zero =>
      cases rest with
      | nil =>
          rw [List.append_nil]
          exact ⟨s, rfl, inv⟩
      | cons c rest =>
          have positive := char_bytes c
          rw [encode_cons, List.length_append] at enough
          omega
  | succ fuel ih =>
      cases rest with
      | nil =>
          rw [List.append_nil]
          exact ⟨s, rfl, inv⟩
      | cons c rest =>
          obtain ⟨b0, tail, bytes, announced, isPoint⟩ := char_read c (encode rest)
          obtain ⟨next, eaten, behind, isCut, nonempty, isTurn, nextInv⟩ :=
            inv.turn bytes announced isPoint
          have isText : encode (c :: rest) = b0 :: (tail ++ encode rest) := by
            rw [encode_cons, bytes]
            rfl
          have offset : contents.length - (encode (c :: rest)).length = (encode done).length := by
            rw [isContents, encode_append, List.length_append, Nat.add_sub_cancel]
          have less : (encode behind).length < (encode (c :: rest)).length := by
            cases eaten with
            | nil => exact absurd rfl nonempty
            | cons d eaten =>
                have positive := char_bytes d
                rw [isCut, encode_append, encode_cons, List.length_append, List.length_append]
                omega
          have isAll : done ++ c :: rest = done ++ eaten ++ behind := by
            rw [isCut, List.append_assoc]
          obtain ⟨last, isLast, lastInv⟩ :=
            ih nextInv (isContents.trans (congrArg encode isAll)) (by omega)
          rw [isText] at offset ⊢
          rw [scanLoop, offset, isTurn, isAll]
          exact ⟨last, isLast, lastInv⟩

/-- The last line has its table, and what the end of the source adds to it. -/
structure LastOf (s : Scan) (pos : Nat) (last : Scan) (extra : List Nat) : Prop where
  list : last.list = s.list
  line : last.lineByteOffset = s.lineStart pos
  first : last.byteOffsetToFirstNonAscii = s.byteOffsetToFirstNonAscii
  columns : last.columnsForNonAscii = s.columnsForNonAscii ++ extra
  noExtra : s.columnsForNonAscii = [] → extra = []

theorem lastOf_of_lastLine {pos : Nat} {last : Scan} (isLast : s.lastLine pos = some last) :
    ∃ extra, LastOf s pos last extra := by
  unfold Scan.lastLine at isLast
  rw [beginLine_eq] at isLast
  dsimp only at isLast
  split at isLast
  · next columns =>
    unfold Scan.extendTable at isLast
    dsimp only at isLast
    split at isLast
    · cases isLast
    · cases isLast
      exact ⟨_, rfl, rfl, rfl, rfl, fun none => absurd none columns⟩
  · cases isLast
    exact ⟨[], rfl, rfl, rfl, (List.append_nil _).symm, fun _ => rfl⟩

/-- Every place of a text has its row. -/
theorem CharInv.rowOf {last : Scan} {extra : List Nat} (inv : CharInv s done [])
    (isLast : LastOf s (encode done).length last extra) {front back : List Char}
    (isDone : done = front ++ c :: back) :
    ∃ row, RightAt (last.list ++ [last.row])
      ((last.list ++ [last.row]).map LineOffsetTable.byteOffsetToStartOfLine) front (c :: back)
      row := by
  have starts : (last.list ++ [last.row]).map LineOffsetTable.byteOffsetToStartOfLine =
      s.starts (encode done).length := by
    rw [List.map_append, isLast.list]
    show _ ++ [last.lineByteOffset] = _
    rw [isLast.line]
    rfl
  have rows := inv.rows
  obtain ⟨further, sameLine⟩ := position_front front c back []
  rw [← isDone, List.append_nil] at further sameLine
  by_cases isPast : (position front (c :: back)).1 < s.list.length
  · obtain ⟨row, right⟩ := inv.past front c back isDone (by rwa [List.append_nil])
    rw [List.append_nil] at right
    refine ⟨row, ?_, right.start, right.column, ?_⟩
    · rw [isLast.list, List.getElem?_append_left isPast]
      exact right.isRow
    · rw [starts]
      exact right.before
  · have same : (position front (c :: back)).1 = s.list.length := by omega
    have isLine := sameLine (rows.symm.trans same.symm)
    refine ⟨last.row, ?_, ?_, ?_, ?_⟩
    · rw [isLast.list, same, List.getElem?_append_right (Nat.le_refl _), Nat.sub_self]
      rfl
    · have start := inv.start
      have lineLength := congrArg (fun chars => (encode chars).length) isLine
      have doneLength := congrArg (fun chars => (encode chars).length) isDone
      simp only [encode_append, List.length_append] at lineLength doneLength
      show last.lineByteOffset + _ = _
      rw [isLast.line]
      omega
    · have found := inv.table.columnAt_eq isLine isLast.noExtra
      rw [← isLast.columns, ← isLast.first] at found
      exact found
    · have outside : (s.starts (encode done).length)[s.list.length + 1]? = none := by
        simp [Scan.starts]
      intro next isNext
      rw [same, starts, outside] at isNext
      cases isNext

end CharInv

/-! ### The line of an offset -/

section Hint

variable {offsets : List Nat} {loc line : Nat}

/-- The line of an offset: it begins in front of it or there, and the next one behind it. -/
structure OnLine (offsets : List Nat) (loc line : Nat) : Prop where
  begins : ∃ here, offsets[line]? = some here ∧ here ≤ loc
  ends : ∀ next ∈ offsets[line + 1]?, loc < next

theorem OnLine.upTo (onLine : OnLine offsets loc line) (increasing : offsets.Pairwise (· < ·))
    {i : Nat} {offset : Nat} (isOffset : offsets[i]? = some offset) : offset ≤ loc ↔ i ≤ line := by
  obtain ⟨here, isHere, small⟩ := onLine.begins
  obtain ⟨insideLine, rfl⟩ := List.getElem?_eq_some_iff.mp isHere
  obtain ⟨inside, rfl⟩ := List.getElem?_eq_some_iff.mp isOffset
  have ordered := List.pairwise_iff_getElem.mp increasing
  constructor
  · intro atMost
    by_contra behind
    have insideNext : line + 1 < offsets.length := by omega
    have large := onLine.ends _ (List.getElem?_eq_getElem insideNext)
    rcases Nat.lt_or_eq_of_le (show line + 1 ≤ i by omega) with less | same
    · have nextLess := ordered _ _ insideNext inside less
      omega
    · subst same
      omega
  · intro atMost
    rcases Nat.lt_or_eq_of_le atMost with less | rfl
    · have hereLess := ordered _ _ inside insideLine less
      omega
    · exact small

theorem findLineLoop_line (onLine : OnLine offsets loc line)
    (increasing : offsets.Pairwise (· < ·)) {fuel originalLine count : Nat}
    (enough : count ≤ fuel) (low : originalLine ≤ line + 1) (high : line + 1 ≤ originalLine + count)
    (inside : originalLine + count ≤ offsets.length) :
    findLineLoop offsets loc fuel originalLine count = some (line + 1) := by
  induction fuel generalizing originalLine count with
  | zero =>
      have same : originalLine = line + 1 := by omega
      rw [same, findLineLoop]
  | succ fuel ih =>
      rw [findLineLoop]
      split
      · next positive =>
        have insideMiddle : originalLine + count / 2 < offsets.length := by omega
        have isMiddle := List.getElem?_eq_getElem insideMiddle
        have upTo := onLine.upTo increasing isMiddle
        dsimp only
        rw [isMiddle, Option.bind_eq_bind, Option.bind_some]
        split
        · next atMost =>
          have before := upTo.mp atMost
          apply ih
          · omega
          · omega
          · omega
          · omega
        · next more =>
          have behind : ¬originalLine + count / 2 ≤ line := fun before => more (upTo.mpr before)
          apply ih
          · omega
          · omega
          · omega
          · omega
      · next zero =>
        have same : originalLine = line + 1 := by omega
        rw [same]

theorem findLine_line (onLine : OnLine offsets loc line) (increasing : offsets.Pairwise (· < ·)) :
    findLine offsets loc = some (line : Int) := by
  obtain ⟨here, isHere, _⟩ := onLine.begins
  have inside := (List.getElem?_eq_some_iff.mp isHere).1
  have isFound : findLineLoop offsets loc offsets.length 0 offsets.length = some (line + 1) :=
    findLineLoop_line onLine increasing (Nat.le_refl _) (Nat.zero_le _) (by omega) (by omega)
  rw [findLine, isFound, Option.bind_eq_bind, Option.bind_some]
  show some ((line : Int) + 1 - 1) = _
  rw [Int.add_sub_cancel]

/-- The line is found from every hint. -/
theorem findLineWithHint_line (onLine : OnLine offsets loc line)
    (increasing : offsets.Pairwise (· < ·)) (hint : Nat) :
    findLineWithHint offsets loc hint = some (line : Int) := by
  have isLine := findLine_line onLine increasing
  obtain ⟨here, isHere, _⟩ := onLine.begins
  have insideLine := (List.getElem?_eq_some_iff.mp isHere).1
  -- where a line in front of the next one, or of the end, is not behind the offset
  have stops {i : Nat} (inside : i ≤ offsets.length) (before : i ≤ line + 1) :
      (i = offsets.length ∨ ∃ next ∈ offsets[i]?, loc < next) ↔ i = line + 1 := by
    constructor
    · rintro (isEnd | ⟨next, isNext, large⟩)
      · omega
      · have upTo := onLine.upTo increasing isNext
        omega
    · rintro rfl
      rcases Nat.lt_or_eq_of_le inside with less | same
      · exact .inr ⟨_, List.getElem?_eq_getElem less,
          onLine.ends _ (List.getElem?_eq_getElem less)⟩
      · exact .inl same
  unfold findLineWithHint
  simp only [Bool.or_eq_true, decide_eq_true_eq]
  split
  · next begins =>
    obtain ⟨offset, isOffset, atMost⟩ := begins
    have before := (onLine.upTo increasing isOffset).mp atMost
    split
    · next ends =>
      have same := (stops (by omega) (by omega)).mp ends
      obtain rfl : hint = line := by omega
      rfl
    · next notFirst =>
      have more : hint + 1 ≠ line + 1 :=
        fun same => notFirst ((stops (by omega) (by omega)).mpr same)
      split
      · next ends =>
        have same := (stops (by omega) (by omega)).mp ends
        obtain rfl : line = hint + 1 := by omega
        rfl
      · next notSecond =>
        have evenMore : hint + 2 ≠ line + 1 :=
          fun same => notSecond ((stops (by omega) (by omega)).mpr same)
        split
        · next ends =>
          have same := (stops (by omega) (by omega)).mp ends
          obtain rfl : line = hint + 2 := by omega
          rfl
        · exact isLine
  · exact isLine

end Hint

/-! ### Original positions -/

/-- What is found behind a text on a line is its width when it is all ASCII, or does not end in an
ASCII character. -/
theorem shown_eq_iff (front : List Char) : shown front = width16 front ↔
    (∀ c ∈ front, isAscii c = true) ∨ ∀ c ∈ front.getLast?, isAscii c = false := by
  unfold shown
  split
  · next all => exact iff_of_true rfl (.inl (List.all_eq_true.mp all))
  · next notAll =>
    have notPlain : ¬∀ c ∈ front, isAscii c = true := fun plain =>
      notAll (List.all_eq_true.mpr plain)
    rw [or_iff_right notPlain]
    cases isLast : front.getLast? with
    | none => simp
    | some last =>
        obtain ⟨init, rfl⟩ := List.getLast?_eq_some_iff.mp isLast
        simp only [Option.any_some, Option.mem_def, Option.some.injEq, forall_eq']
        split
        · next ascii =>
          have positive : width16 (init ++ [last]) = width16 init + 1 := by
            rw [width16_append, width16_singleton, units_ascii ascii]
          rw [ascii, positive]
          simp
        · next wide => exact iff_of_true rfl (by simpa using wide)

theorem whole_of_chars (chars : List Char) : WholeSequences (encode chars) := by
  induction chars with
  | nil => exact .nil
  | cons c chars ih =>
      obtain ⟨b0, tail, bytes, announced, _⟩ := char_read c (encode chars)
      have isText : encode (c :: chars) = b0 :: (tail ++ encode chars) := by
        rw [encode_cons, bytes]
        rfl
      rw [isText]
      apply WholeSequences.cons
      · rw [announced, List.length_cons, List.length_append]
        omega
      · rw [announced, List.drop_succ_cons, List.drop_left]
        exact ih

/-- What is found for an offset, from its line. -/
theorem originalPosition_of_line {table : List LineOffsetTable} {row : LineOffsetTable}
    {loc hint line byte column : Nat}
    (isLine : findLineWithHint (table.map LineOffsetTable.byteOffsetToStartOfLine) loc hint =
      some (line : Int)) (isRow : table[line]? = some row)
    (start : row.byteOffsetToStartOfLine + byte = loc)
    (isColumn : columnAt row.byteOffsetToFirstNonAscii row.columnsForNonAscii byte = some column) :
    originalPosition table loc hint = some ((line : Int), (column : Int)) := by
  have offset : (loc : Int) - row.byteOffsetToStartOfLine = byte := by omega
  rw [originalPosition, isLine, Option.bind_eq_bind, Option.bind_some, Int.toNat_natCast, isRow,
    Option.bind_eq_bind, Option.bind_some]
  dsimp only
  rw [offset]
  unfold columnAt at isColumn
  split at isColumn
  · next both =>
    have index : ((byte : Int) - row.byteOffsetToFirstNonAscii).toNat =
        byte - row.byteOffsetToFirstNonAscii := by omega
    rw [if_pos ⟨by omega, both.2⟩, index, isColumn]
    rfl
  · next notBoth =>
    rw [if_neg fun both => notBoth ⟨by omega, both.2⟩, Option.some.inj isColumn]
    rfl

/-- The original line of every character of a source is right, from every hint, and the original
column is right where the line is ASCII so far or the character in front is not ASCII. -/
theorem original_position (done rest : List Char) (c : Char) (hint : Nat) :
    ∃ table line column, generateIn (encode (done ++ c :: rest)) = some table ∧
      originalPosition table (encode done).length hint = some (line, column) ∧
      line = (position done (c :: rest)).1 ∧
      (column = width16 (position done (c :: rest)).2 ↔
        (∀ d ∈ (position done (c :: rest)).2, isAscii d = true) ∨
          ∀ d ∈ (position done (c :: rest)).2.getLast?, isAscii d = false) := by
  obtain ⟨table, isTable, _, increasing⟩ :=
    (generateIn_total _).mpr (whole_of_chars (done ++ c :: rest))
  obtain ⟨s, isScan, inv⟩ :=
    (charInv_start (done ++ c :: rest)).loop rfl (Nat.le_refl _)
  rw [List.nil_append] at isScan inv
  -- the last line is what the table ends with
  obtain ⟨last, isLast, rfl⟩ : ∃ last, s.lastLine (encode (done ++ c :: rest)).length = some last ∧
      last.list ++ [last.row] = table := by
    rw [generateIn, isScan, Option.bind_eq_bind, Option.bind_some] at isTable
    obtain ⟨last, isLast, isRows⟩ := Option.bind_eq_some_iff.mp isTable
    exact ⟨last, isLast, Option.some.inj isRows⟩
  obtain ⟨extra, lastOf⟩ := lastOf_of_lastLine isLast
  obtain ⟨row, right⟩ := inv.rowOf lastOf rfl
  have onLine : OnLine ((last.list ++ [last.row]).map LineOffsetTable.byteOffsetToStartOfLine)
      (encode done).length (position done (c :: rest)).1 := by
    constructor
    · refine ⟨row.byteOffsetToStartOfLine, ?_, ?_⟩
      · rw [List.getElem?_map, right.isRow]
        rfl
      · have start := right.start
        omega
    · exact right.before
  refine ⟨_, (position done (c :: rest)).1, shown (position done (c :: rest)).2, isTable, ?_, rfl,
    ?_⟩
  · exact originalPosition_of_line (findLineWithHint_line onLine increasing hint) right.isRow
      right.start right.column
  · rw [Int.natCast_inj]
    exact shown_eq_iff _

/-- `éab`: the column of `b` is 2, and 1 is found for it. -/
theorem ascii_behind_table : ∃ table, generateIn (encode ['é', 'a', 'b']) = some table ∧
    originalPosition table (encode ['é', 'a']).length 0 = some (0, 1) ∧
    width16 (position ['é', 'a'] ['b']).2 = 2 :=
  ⟨[{ columnsForNonAscii := [0, 0, 1, 1, 2, 3]
      byteOffsetToFirstNonAscii := 0
      byteOffsetToStartOfLine := 0 }], by decide +kernel⟩

end Bunx.SourceMap
