/-
Module: Bunx.SourceMap.LineColumnOffset
Purpose: The line and the column in which a text ends, and when they can be counted text by text.
Trusted boundary: texts of less than 2^31 bytes, so that no line or column overflows
Main exports: LineColumnOffset, LineColumnOffset.add, LineColumnOffset.advance, advance_eq_add,
  CountsBehind, advance_append
-/
import Mathlib.Algebra.Ring.Int.Defs
import Mathlib.Algebra.Ring.Nat
import Mathlib.Data.List.Basic

namespace Bunx.SourceMap.TextOffset

abbrev Text : Type := List UInt8

/-! ### Code points -/

def wtf8ByteSequenceLength (first : UInt8) : Nat :=
  if 0xC0 ≤ first ∧ first ≤ 0xDF then 2
  else if 0xE0 ≤ first ∧ first ≤ 0xEF then 3
  else if 0xF0 ≤ first ∧ first ≤ 0xF7 then 4
  else 1

def isContinuation (c : UInt8) : Bool := c &&& 0xC0 = 0x80

/-- The code point of a sequence of `len` bytes, where its bytes make one. -/
def decodeWtf8Rune (p0 p1 p2 p3 : UInt8) (len : Nat) : Option Nat :=
  if len = 1 then some p0.toNat
  else if !isContinuation p1 then none
  else if len = 2 then
    let cp := (p0 &&& 0x1F).toNat * 2 ^ 6 + (p1 &&& 0x3F).toNat
    if cp < 0x80 then none else some cp
  else if !isContinuation p2 then none
  else if len = 3 then
    let cp := (p0 &&& 0x0F).toNat * 2 ^ 12 + (p1 &&& 0x3F).toNat * 2 ^ 6 + (p2 &&& 0x3F).toNat
    if cp < 0x800 then none else some cp
  else if !isContinuation p3 then none
  else
    let cp := (p0 &&& 0x07).toNat * 2 ^ 18 + (p1 &&& 0x3F).toNat * 2 ^ 12 +
      (p2 &&& 0x3F).toNat * 2 ^ 6 + (p3 &&& 0x3F).toNat
    if cp < 0x10000 ∨ cp > 0x10FFFF then none else some cp

/-- The code point at the beginning of a text and its width. What makes none is one byte wide. -/
def nextCodepoint (tail : Text) : Nat × Nat :=
  match tail with
  | [] => (0, 0)
  | first :: rest =>
      if first < 0x80 then (first.toNat, 1)
      else
        let len := wtf8ByteSequenceLength first
        match decodeWtf8Rune first (rest[0]?.getD 0) (rest[1]?.getD 0) (rest[2]?.getD 0) len with
        | none => (0xFFFD, 1)
        | some cp => (cp, len)

/-! ### Lines and columns -/

/-- Both are counted from zero. -/
structure LineColumnOffset where
  lines : Nat
  columns : Nat
deriving DecidableEq

def isNewlineOrNonAscii (c : UInt8) : Bool := c > 127 || c < 0x20

def indexOfNewlineOrNonAscii (text : Text) : Option Nat := text.findIdx? isNewlineOrNonAscii

namespace LineColumnOffset

def zero : LineColumnOffset := { lines := 0, columns := 0 }

def add (this b : LineColumnOffset) : LineColumnOffset :=
  if b.lines = 0 then { this with columns := this.columns + b.columns }
  else { lines := this.lines + b.lines, columns := b.columns }

def addColumns (this : LineColumnOffset) (n : Nat) : LineColumnOffset :=
  { this with columns := this.columns + n }

/-- What a code point does to an offset, before the text behind it. -/
def character (this : LineColumnOffset) (c : Nat) (crlf : Bool) : LineColumnOffset :=
  if c = 0x0D ∨ c = 0x0A ∨ c = 0x2028 ∨ c = 0x2029 then
    -- `\r` in front of `\n` is not a line break of its own
    if c = 0x0D ∧ crlf then this.addColumns 1
    else { lines := this.lines + 1, columns := 0 }
  else this.addColumns (if c > 0xFFFF then 2 else 1)

/-- The loop goes from one control character, or one that is not ASCII, to the next. -/
def advanceLoop : Nat → LineColumnOffset → Text → LineColumnOffset
  | 0, this, remain => this.addColumns remain.length
  | fuel + 1, this, remain =>
      match indexOfNewlineOrNonAscii remain with
      | none => this.addColumns remain.length
      | some i =>
          let tail := remain.drop i
          let cursor := nextCodepoint tail
          if cursor.2 = 0 then advanceLoop fuel (this.addColumns 1) (tail.drop 1)
          else
            advanceLoop fuel (this.character cursor.1 (tail[1]? = some 0x0A))
              (tail.drop cursor.2)

/-- Each turn of the loop takes a byte. -/
def advance (this : LineColumnOffset) (input : Text) : LineColumnOffset :=
  advanceLoop input.length this input

end LineColumnOffset

/-! ### Offsets behind offsets -/

namespace LineColumnOffset

theorem add_assoc (a b c : LineColumnOffset) : (a.add b).add c = a.add (b.add c) := by
  unfold add
  by_cases cLines : c.lines = 0
  · by_cases bLines : b.lines = 0
    · simp [cLines, bLines, Nat.add_assoc]
    · simp [cLines, bLines]
  · by_cases bLines : b.lines = 0
    · simp [cLines, bLines]
    · simp [cLines, bLines, Nat.add_assoc]

theorem add_columns (a : LineColumnOffset) (n : Nat) : a.addColumns n = a.add (zero.addColumns n) :=
  by simp [add, addColumns, zero]

theorem add_character (a : LineColumnOffset) (c : Nat) (crlf : Bool) :
    a.character c crlf = a.add (zero.character c crlf) := by
  unfold character
  split
  · split
    · exact add_columns a 1
    · simp [add, zero]
  · exact add_columns a _

theorem advanceLoop_eq_add (fuel : Nat) (this : LineColumnOffset) (remain : Text) :
    advanceLoop fuel this remain = this.add (advanceLoop fuel zero remain) := by
  induction fuel generalizing this remain with
  | zero => exact add_columns this _
  | succ fuel ih =>
      unfold advanceLoop
      split
      · exact add_columns this _
      · dsimp only
        split
        · rw [ih (this.addColumns 1), ih (zero.addColumns 1),
            add_columns this, add_assoc]
        · rw [ih (this.character ..), ih (zero.character ..),
            add_character this, add_assoc]

/-- A text moves every offset by the same lines and columns. -/
theorem advance_eq_add (this : LineColumnOffset) (input : Text) :
    this.advance input = this.add (zero.advance input) :=
  advanceLoop_eq_add _ _ _

end LineColumnOffset

/-! ### The turns of the loop -/

/-- A byte in front of which a text can be cut. -/
def Starts (text : Text) : Prop := ∀ c ∈ text.head?, isContinuation c = false

theorem isContinuation_zero : isContinuation 0 = false := by decide

theorem head_byte {text : Text} (starts : Starts text) :
    isContinuation (text[0]?.getD 0) = false := by
  cases text with
  | nil => exact isContinuation_zero
  | cons c text => exact starts c rfl

/-- A code point is read within the text that it begins in. -/
theorem nextCodepoint_append {tail : Text} (nonempty : tail ≠ []) {text : Text}
    (starts : Starts text) : nextCodepoint (tail ++ text) = nextCodepoint tail := by
  have behind := head_byte starts
  cases tail with
  | nil => exact absurd rfl nonempty
  | cons first rest =>
      have sameRune (len : Nat) :
          decodeWtf8Rune first ((rest ++ text)[0]?.getD 0) ((rest ++ text)[1]?.getD 0)
              ((rest ++ text)[2]?.getD 0) len =
            decodeWtf8Rune first (rest[0]?.getD 0) (rest[1]?.getD 0) (rest[2]?.getD 0) len := by
        match rest with
        | [] => simp [decodeWtf8Rune, behind, isContinuation_zero]
        | [one] => simp [decodeWtf8Rune, behind, isContinuation_zero]
        | [one, two] => simp [decodeWtf8Rune, behind, isContinuation_zero]
        | one :: two :: three :: more => simp
      simp only [nextCodepoint, List.cons_append, sameRune]

theorem rune_fits {first : UInt8} {rest : Text} {len cp : Nat} (small : len ≤ 4)
    (isRune : decodeWtf8Rune first (rest[0]?.getD 0) (rest[1]?.getD 0) (rest[2]?.getD 0) len =
      some cp) : len ≤ rest.length + 1 := by
  by_contra short
  have notOne : len ≠ 1 := by omega
  match rest with
  | [] => simp [decodeWtf8Rune, isContinuation_zero, notOne] at isRune
  | [one] =>
      have notTwo : len ≠ 2 := by
        simp only [List.length_singleton] at short
        omega
      simp [decodeWtf8Rune, isContinuation_zero, notOne, notTwo] at isRune
  | [one, two] =>
      have isFour : len = 4 := by
        simp only [List.length_cons, List.length_nil] at short
        omega
      simp [decodeWtf8Rune, isContinuation_zero, isFour] at isRune
  | one :: two :: three :: more =>
      simp only [List.length_cons] at short
      omega

theorem wtf8ByteSequenceLength_bounds (first : UInt8) :
    0 < wtf8ByteSequenceLength first ∧ wtf8ByteSequenceLength first ≤ 4 := by
  unfold wtf8ByteSequenceLength
  split
  · decide
  · split
    · decide
    · split
      · decide
      · decide

/-- A code point takes at least a byte, and no more than there are. -/
theorem nextCodepoint_width {tail : Text} (nonempty : tail ≠ []) :
    0 < (nextCodepoint tail).2 ∧ (nextCodepoint tail).2 ≤ tail.length := by
  cases tail with
  | nil => exact absurd rfl nonempty
  | cons first rest =>
      unfold nextCodepoint
      dsimp only
      split
      · simp
      · split
        · simp
        · next cp isRune =>
          obtain ⟨positive, small⟩ := wtf8ByteSequenceLength_bounds first
          exact ⟨positive, rune_fits small isRune⟩

section Turns

variable {this : LineColumnOffset} {text : Text}

open LineColumnOffset

theorem index_lt {i : Nat} (found : indexOfNewlineOrNonAscii text = some i) : i < text.length :=
  (List.findIdx?_eq_some_iff_findIdx_eq.mp found).1

/-- Behind a turn there is less of the text. -/
theorem rest_lt {i : Nat} (found : indexOfNewlineOrNonAscii text = some i) :
    ((text.drop i).drop (nextCodepoint (text.drop i)).2).length < text.length := by
  have inside := index_lt found
  have nonempty : text.drop i ≠ [] := by simpa using inside
  have width := nextCodepoint_width nonempty
  rw [List.length_drop, List.length_drop] at *
  omega

/-- What the loop does at a character that it stops at. -/
theorem advanceLoop_stop {fuel i : Nat} (found : indexOfNewlineOrNonAscii text = some i) :
    advanceLoop (fuel + 1) this text =
      advanceLoop fuel (this.character (nextCodepoint (text.drop i)).1
        ((text.drop i)[1]? = some 0x0A)) ((text.drop i).drop (nextCodepoint (text.drop i)).2) := by
  have inside := index_lt found
  have nonempty : text.drop i ≠ [] := by simpa using inside
  have width := (nextCodepoint_width nonempty).1
  rw [advanceLoop, found]
  dsimp only
  rw [if_neg (Nat.ne_of_gt width)]

theorem advanceLoop_plain {fuel : Nat} (plain : indexOfNewlineOrNonAscii text = none) :
    advanceLoop fuel this text = this.addColumns text.length := by
  cases fuel with
  | zero => rfl
  | succ fuel => rw [advanceLoop, plain]

theorem advanceLoop_enough {fuel more : Nat} (enough : text.length ≤ fuel)
    (moreEnough : text.length ≤ more) :
    advanceLoop fuel this text = advanceLoop more this text := by
  induction fuel generalizing more this text with
  | zero =>
      have isEmpty : text = [] := List.length_eq_zero_iff.mp (by omega)
      rw [isEmpty, advanceLoop_plain rfl, advanceLoop_plain rfl]
  | succ fuel ih =>
      cases found : indexOfNewlineOrNonAscii text with
      | none => rw [advanceLoop_plain found, advanceLoop_plain found]
      | some i =>
          have less := rest_lt found
          obtain ⟨more, rfl⟩ := Nat.exists_eq_succ_of_ne_zero (n := more) (by omega)
          rw [advanceLoop_stop found, advanceLoop_stop found]
          exact ih (by omega) (by omega)

theorem advance_plain (plain : indexOfNewlineOrNonAscii text = none) :
    this.advance text = this.addColumns text.length :=
  advanceLoop_plain plain

theorem advance_stop {i : Nat} (found : indexOfNewlineOrNonAscii text = some i) :
    this.advance text =
      (this.character (nextCodepoint (text.drop i)).1 ((text.drop i)[1]? = some 0x0A)).advance
        ((text.drop i).drop (nextCodepoint (text.drop i)).2) := by
  have less := rest_lt found
  have same : this.advance text = advanceLoop (text.length + 1) this text :=
    advanceLoop_enough (Nat.le_refl _) (Nat.le_succ _)
  rw [same, advanceLoop_stop found]
  exact advanceLoop_enough (by omega) (Nat.le_refl _)

end Turns

/-! ### Texts behind texts -/

/-- No character is cut between two texts, and none of the second one drops the columns at the
end of the first one. -/
structure CountsBehind (before text : Text) : Prop where
  whole : Starts text
  crlf : before.getLast? = some 0x0D → text.head? ≠ some 0x0A
  run : indexOfNewlineOrNonAscii text = none ∨ (LineColumnOffset.zero.advance text).lines ≠ 0 ∨
    ∀ c ∈ before.getLast?, isNewlineOrNonAscii c = true

section Append

variable {before text : Text} {this : LineColumnOffset}

open LineColumnOffset

theorem CountsBehind.tail (front : Text) (follows : CountsBehind (front ++ before) text) :
    CountsBehind before text := by
  cases before with
  | nil =>
      refine ⟨follows.whole, by simp, ?_⟩
      rcases follows.run with plain | breaks | _
      · exact .inl plain
      · exact .inr (.inl breaks)
      · exact .inr (.inr (by simp))
  | cons c before =>
      have sameLast : (front ++ c :: before).getLast? = (c :: before).getLast? :=
        List.getLast?_append_of_ne_nil _ (List.cons_ne_nil c before)
      obtain ⟨whole, crlf, run⟩ := follows
      rw [sameLast] at crlf run
      exact ⟨whole, crlf, run⟩

/-- A text with a line break does not see the column that it begins in. -/
theorem advance_of_breaks (breaks : (zero.advance text).lines ≠ 0) (n : Nat) :
    (this.addColumns n).advance text = this.advance text := by
  rw [advance_eq_add, advance_eq_add this, add, add, if_neg breaks, if_neg breaks]
  rfl

theorem character_congr {c : Nat} {crlf crlf' : Bool} (same : c = 0x0D → crlf = crlf') :
    this.character c crlf = this.character c crlf' := by
  by_cases isReturn : c = 0x0D
  · rw [same isReturn]
  · simp [character, isReturn]

/-- A last byte that reads as `\r` is one. -/
theorem nextCodepoint_return {c : UInt8} (isReturn : (nextCodepoint [c]).1 = 0x0D) : c = 0x0D := by
  unfold nextCodepoint at isReturn
  dsimp only at isReturn
  split at isReturn
  · exact UInt8.toNat_inj.mp isReturn
  · next notAscii =>
    exfalso
    split at isReturn
    · cases isReturn
    · next cp isRune =>
      obtain ⟨positive, small⟩ := wtf8ByteSequenceLength_bounds c
      have fits := rune_fits small isRune
      have isOne : wtf8ByteSequenceLength c = 1 := by
        simp only [List.length_nil] at fits
        omega
      rw [isOne] at isRune
      have isByte : c.toNat = cp := Option.some.inj isRune
      have isReturnByte : c.toNat = 0x0D := isByte.trans isReturn
      rw [UInt8.lt_iff_toNat_lt, isReturnByte] at notAscii
      exact notAscii (by decide)

/-- The character at the end of a text is read in the same way with a text behind it. -/
theorem character_append {tail : Text} (nonempty : tail ≠ []) (follows : CountsBehind tail text) :
    this.character (nextCodepoint (tail ++ text)).1 ((tail ++ text)[1]? = some 0x0A) =
      this.character (nextCodepoint tail).1 (tail[1]? = some 0x0A) := by
  rw [nextCodepoint_append nonempty follows.whole]
  match tail with
  | [] => exact absurd rfl nonempty
  | [c] =>
      apply character_congr
      intro isReturn
      have isLast : c = 0x0D := nextCodepoint_return isReturn
      have notFeed := follows.crlf (by rw [isLast]; rfl)
      rw [List.head?_eq_getElem?] at notFeed
      simp [notFeed]
  | c :: d :: more => rfl

/-- The offset behind two texts is that of the second one behind the first one. -/
theorem advance_append (follows : CountsBehind before text) :
    this.advance (before ++ text) = (this.advance before).advance text := by
  induction size : before.length using Nat.strongRecOn generalizing before this with
  | ind n ih =>
      cases found : indexOfNewlineOrNonAscii before with
      | none =>
          have index : indexOfNewlineOrNonAscii (before ++ text) =
              (indexOfNewlineOrNonAscii text).map (· + before.length) := by
            unfold indexOfNewlineOrNonAscii at found ⊢
            rw [List.findIdx?_append, found, Option.none_or]
          rw [advance_plain found]
          cases stops : indexOfNewlineOrNonAscii text with
          | none =>
              rw [stops] at index
              rw [advance_plain index, advance_plain stops, List.length_append]
              simp only [addColumns, Nat.add_assoc]
          | some j =>
              rw [stops, Option.map_some, Nat.add_comm] at index
              have sameStop : this.advance (before ++ text) = this.advance text := by
                rw [advance_stop index, advance_stop stops, List.drop_append,
                  List.drop_eq_nil_of_le (Nat.le_add_right _ _), List.nil_append,
                  Nat.add_sub_cancel_left]
              rw [sameStop]
              rcases follows.run with plain | breaks | ends
              · rw [plain] at stops
                cases stops
              · exact (advance_of_breaks breaks _).symm
              · cases isLast : before.getLast? with
                | none =>
                    rw [List.getLast?_eq_none_iff.mp isLast]
                    rfl
                | some c =>
                    have flagged := ends c isLast
                    have plain := List.findIdx?_eq_none_iff.mp found c
                      (List.mem_of_getLast? isLast)
                    rw [flagged] at plain
                    cases plain
      | some i =>
          have inside := index_lt found
          have nonempty : before.drop i ≠ [] := by simpa using inside
          have index : indexOfNewlineOrNonAscii (before ++ text) = some i := by
            unfold indexOfNewlineOrNonAscii at found ⊢
            rw [List.findIdx?_append, found, Option.some_or]
          have follows' : CountsBehind (before.drop i) text :=
            CountsBehind.tail (before.take i) (by rwa [List.take_append_drop])
          have width := (nextCodepoint_width nonempty).2
          rw [advance_stop index, advance_stop found,
            List.drop_append_of_le_length (Nat.le_of_lt inside),
            character_append nonempty follows', nextCodepoint_append nonempty follows.whole,
            List.drop_append_of_le_length width]
          apply ih _ _ _ rfl
          · exact size ▸ rest_lt found
          · apply CountsBehind.tail ((before.drop i).take (nextCodepoint (before.drop i)).2)
            rwa [List.take_append_drop]

end Append

/-! ### Plain texts -/

/-- Printable ASCII and line feeds. -/
def Plain (text : Text) : Prop := ∀ c ∈ text, c = 0x0A ∨ isNewlineOrNonAscii c = false

section Plain

variable {before text : Text} {this : LineColumnOffset}

open LineColumnOffset

theorem not_continuation {c : UInt8} (plain : isNewlineOrNonAscii c = false) :
    isContinuation c = false := by
  have all : ∀ n : Fin 256, isNewlineOrNonAscii (UInt8.ofNat n) = false →
      isContinuation (UInt8.ofNat n) = false := by decide +kernel
  have isByte := all ⟨c.toNat, c.toNat_lt⟩
  simp only [UInt8.ofNat_toNat] at isByte
  exact isByte plain

theorem lines_le_add (a b : LineColumnOffset) : a.lines ≤ (a.add b).lines := by
  unfold add
  split
  · exact Nat.le_refl _
  · exact Nat.le_add_right _ _

theorem lines_le_advance : this.lines ≤ (this.advance text).lines := by
  rw [advance_eq_add]
  exact lines_le_add _ _

/-- A plain text that stops the loop has a line break. -/
theorem Plain.breaks (plain : Plain text) {i : Nat}
    (found : indexOfNewlineOrNonAscii text = some i) : (zero.advance text).lines ≠ 0 := by
  obtain ⟨inside, isFlagged, _⟩ := List.findIdx?_eq_some_iff_getElem.mp found
  have isFeed : text[i] = 0x0A := by
    rcases plain text[i] (List.getElem_mem inside) with isFeed | unflagged
    · exact isFeed
    · rw [unflagged] at isFlagged
      cases isFlagged
  have tail : text.drop i = 0x0A :: text.drop (i + 1) := by
    rw [List.drop_eq_getElem_cons inside, isFeed]
  have broken : ∀ crlf, (zero.character (nextCodepoint (text.drop i)).1 crlf).lines = 1 := by
    intro crlf
    rw [tail]
    rfl
  rw [advance_stop found]
  apply Nat.ne_of_gt
  refine Nat.lt_of_lt_of_le ?_ lines_le_advance
  rw [broken]
  exact Nat.one_pos

theorem Plain.follows (plainBefore : Plain before) (plain : Plain text) : CountsBehind before text := by
  refine ⟨?_, ?_, ?_⟩
  · intro c isHead
    rcases plain c (List.mem_of_mem_head? isHead) with rfl | unflagged
    · rfl
    · exact not_continuation unflagged
  · intro isReturn
    rcases plainBefore 0x0D (List.mem_of_getLast? isReturn) with isFeed | unflagged
    · cases isFeed
    · cases unflagged
  · cases found : indexOfNewlineOrNonAscii text with
    | none => exact .inl rfl
    | some i => exact .inr (.inl (plain.breaks found))

theorem Plain.append (plainBefore : Plain before) (plain : Plain text) :
    Plain (before ++ text) := by
  intro c member
  rcases List.mem_append.mp member with isBefore | isText
  · exact plainBefore c isBefore
  · exact plain c isText

/-- A text without anything that the loop stops at. -/
theorem advance_run (run : ∀ c ∈ text, isNewlineOrNonAscii c = false) :
    this.advance text = this.addColumns text.length :=
  advance_plain (List.findIdx?_eq_none_iff.mpr run)

theorem follows_run (run : ∀ c ∈ text, isNewlineOrNonAscii c = false) : CountsBehind before text := by
  refine ⟨?_, ?_, .inl (List.findIdx?_eq_none_iff.mpr run)⟩
  · intro c isHead
    exact not_continuation (run c (List.mem_of_mem_head? isHead))
  · intro _ isFeed
    have unflagged := run 0x0A (List.mem_of_mem_head? isFeed)
    cases unflagged

end Plain

end Bunx.SourceMap.TextOffset
