/-
Module: Bunx.Dotenv.ParseTotal
Purpose: The readers of keys, values and entries stay within the file, and every turn of the loop
  takes a byte of it.
Trusted boundary: none
Main exports: scanWhile_passed, parseKey_reads, skipLine_total, unescape_total, quotedLoop_reads,
  parseValue_total, entries_total
-/
import Bunx.Dotenv.Entries
import Mathlib.Data.List.TakeWhile

namespace Bunx.Dotenv

open Lib

/-! ### Scanning -/

section Scan

variable {p : UInt8 → Bool} {text : Text} {pos start stop : Nat}

theorem slice_isSome (ordered : start ≤ stop) (inside : stop ≤ text.length) :
    slice text start stop = some ((text.drop start).take (stop - start)) :=
  if_pos ⟨ordered, inside⟩

theorem byte_exists (inside : pos < text.length) : ∃ c, text[pos]? = some c :=
  ⟨text[pos], List.getElem?_eq_getElem inside⟩

theorem slice_pair {c d : UInt8} (isByte : text[pos]? = some c) (isNext : text[pos + 1]? = some d) :
    slice text pos (pos + 2) = some [c, d] := by
  obtain ⟨inside, rfl⟩ := List.getElem?_eq_some_iff.mp isByte
  obtain ⟨nextInside, rfl⟩ := List.getElem?_eq_some_iff.mp isNext
  rw [slice_isSome (Nat.le_add_right _ _) nextInside, Nat.add_sub_cancel_left,
    List.drop_eq_getElem_cons inside, List.drop_eq_getElem_cons nextInside]
  rfl

theorem scanWhile_ge : pos ≤ scanWhile p text pos := Nat.le_add_right _ _

theorem scanWhile_le (inside : pos ≤ text.length) : scanWhile p text pos ≤ text.length := by
  have less := (List.takeWhile_prefix p (l := text.drop pos)).length_le
  rw [List.length_drop] at less
  unfold scanWhile
  omega

/-- The bytes that are passed are of the kind. -/
theorem scanWhile_passed {i : Nat} {c : UInt8} (behind : pos ≤ i) (before : i < scanWhile p text pos)
    (isByte : text[i]? = some c) : p c = true := by
  have inTaken : i - pos < ((text.drop pos).takeWhile p).length := by
    unfold scanWhile at before
    omega
  have same : ((text.drop pos).takeWhile p)[i - pos]? = some c := by
    obtain ⟨rest, isWhole⟩ := List.takeWhile_prefix p (l := text.drop pos)
    have isRest : (text.drop pos)[i - pos]? = some c := by
      rw [List.getElem?_drop, Nat.add_sub_cancel' behind]
      exact isByte
    rw [← isWhole, List.getElem?_append_left inTaken] at isRest
    exact isRest
  exact List.mem_takeWhile_imp (List.mem_of_getElem? same)

end Scan

variable {src : Text} {pos start stop : Nat}

/-! ### Keys -/

/-- A reader of keys stays where it is, or goes on within the file. -/
inductive ReadsKey (src : Text) (start : Nat) : Option (Nat × Option Text) → Prop
  | nothing : ReadsKey src start (some (start, none))
  | key {behind : Nat} {key : Text} : start < behind → behind ≤ src.length →
      ReadsKey src start (some (behind, some key))

theorem behindKey_reads (key : Text) (ordered : start ≤ pos) (inside : pos < src.length) :
    ReadsKey src start (behindKey src key start pos) := by
  have isByte : src[pos]? = some src[pos] := List.getElem?_eq_getElem inside
  unfold behindKey
  rw [isByte]
  show ReadsKey src start (if _ then _ else if _ then _ else _)
  split
  · exact .key (Nat.lt_succ_of_le ordered) inside
  · split
    · next isColon =>
      have nextInside : pos + 1 < src.length := by
        by_contra outside
        rw [List.getElem?_eq_none (Nat.le_of_not_lt outside)] at isColon
        cases isColon.2
      exact .key (Nat.lt_succ_of_le (Nat.le_succ_of_le ordered)) nextInside
    · exact .nothing

theorem parseKeyFrom_reads {exported : Nat → Option (Nat × Option Text)}
    (exportedReads : ∀ pos < src.length, ReadsKey src pos (exported pos)) (start : Nat) :
    ReadsKey src start (parseKeyFrom src exported start) := by
  unfold parseKeyFrom
  dsimp only
  split
  · next stopInside =>
    have behind : start ≤ skipWhitespaces src (scanWhile isKeyByte src start) :=
      scanWhile_ge.trans scanWhile_ge
    split
    · next inside =>
      rw [slice_isSome scanWhile_ge (Nat.le_of_lt stopInside.1)]
      show ReadsKey src start (if _ then _ else _)
      split
      · have reads := exportedReads _ inside
        generalize exported (skipWhitespaces src (scanWhile isKeyByte src start)) = r at reads
        cases reads with
        | nothing => exact behindKey_reads _ behind inside
        | key further within => exact .key (Nat.lt_of_le_of_lt behind further) within
      · exact behindKey_reads _ behind inside
    · exact .nothing
  · exact .nothing

theorem parseKey_reads (src : Text) (pos : Nat) :
    ReadsKey src (skipWhitespaces src pos) (parseKey src pos) :=
  parseKeyFrom_reads
    (fun _ _ => parseKeyFrom_reads (fun _ _ => .nothing) _) _

/-- A skipped line takes a byte if there is one. -/
theorem skipLine_total (inside : pos ≤ src.length) :
    ∃ behind, skipLine src pos = some behind ∧ behind ≤ src.length ∧
      (pos < src.length → pos < behind) := by
  unfold skipLine
  rw [slice_isSome inside (Nat.le_refl _),
    List.take_of_length_le (Nat.le_of_eq List.length_drop)]
  cases isBreak : (src.drop pos).findIdx? isLineBreak with
  | none => exact ⟨src.length, by simp [isBreak], Nat.le_refl _, id⟩
  | some i =>
      obtain ⟨before, -⟩ := List.findIdx?_eq_some_iff_getElem.mp isBreak
      rw [List.length_drop] at before
      exact ⟨pos + (i + 1), by simp [isBreak], by omega, fun _ => by omega⟩

/-! ### Quoted values -/

/-- No escape goes over the end of a value whose last byte is not a backslash, and what is not
empty gives a text that is not. -/
theorem unescape_total {quote : UInt8} {fuel : Nat} (inside : stop ≤ src.length)
    (lastByte : ∀ i, i + 1 = stop → src[i]? ≠ some backslash) (enough : stop ≤ start + fuel) :
    ∃ text, unescape src quote stop fuel start = some text ∧ (start < stop → text ≠ []) := by
  induction fuel generalizing start with
  | zero =>
      have atEnd : ¬ start < stop := Nat.not_lt.mpr enough
      exact ⟨[], by rw [unescape, if_neg atEnd], fun before => absurd before atEnd⟩
  | succ fuel ih =>
      by_cases before : start < stop
      · obtain ⟨c, isByte⟩ := byte_exists (Nat.lt_of_lt_of_le before inside)
        obtain ⟨rest, isRest, nonempty⟩ := @ih (start + 1) (by omega)
        obtain ⟨rest', isRest', -⟩ := @ih (start + 2) (by omega)
        by_cases isBackslash : c = backslash
        · subst isBackslash
          have further : start + 1 < stop := by
            by_contra atEnd
            exact lastByte start (by omega) isByte
          obtain ⟨d, isNext⟩ := byte_exists (Nat.lt_of_lt_of_le further inside)
          have isPair : slice src start (start + 2) = some [backslash, d] :=
            slice_pair isByte isNext
          by_cases isDouble : quote = doubleQuote
          · subst isDouble
            by_cases isN : d = 0x6E
            · exact ⟨newline :: rest',
                by simp [unescape, before, isByte, isN, isRest', isNext],
                fun _ => by simp⟩
            · by_cases isR : d = 0x72
              · exact ⟨carriageReturn :: rest',
                  by simp [unescape, before, isByte, isR, isRest', isNext],
                  fun _ => by simp⟩
              · exact ⟨[backslash, d] ++ rest',
                  by simp [unescape, before, isByte, isN, isR, isRest', isNext, isPair],
                  fun _ => by simp⟩
          · exact ⟨backslash :: rest, by simp [unescape, before, isByte, isDouble, isRest],
              fun _ => by simp⟩
        · by_cases isReturn : c = carriageReturn
          · subst isReturn
            by_cases alone : start + 1 ≥ stop ∨ src[start + 1]? ≠ some newline
            · exact ⟨newline :: rest,
                by simp [unescape, before, isByte, isBackslash, alone, isRest],
                fun _ => by simp⟩
            · have further : start + 1 < stop := Nat.lt_of_not_le (not_or.mp alone).1
              exact ⟨rest,
                by simp [unescape, before, isByte, isBackslash, alone, isRest],
                fun _ => nonempty further⟩
          · exact ⟨c :: rest, by simp [unescape, before, isByte, isBackslash, isReturn, isRest],
              fun _ => by simp⟩
      · exact ⟨[], by rw [unescape, if_neg before], fun before' => absurd before' before⟩

theorem isClosed_total (src : Text) (ordered : stop ≤ pos) : ∃ closed, isClosed src stop pos = some closed := by
  unfold isClosed
  by_cases outside : pos ≥ src.length
  · exact ⟨true, if_pos outside⟩
  · have inside : pos < src.length := Nat.lt_of_not_le outside
    obtain ⟨c, isByte⟩ := byte_exists inside
    rw [if_neg outside, isByte, slice_isSome ordered (Nat.le_of_lt inside)]
    by_cases isHash : c = hash
    · exact ⟨true, by simp [isHash]⟩
    · exact ⟨_, by simp [isHash]; rfl⟩

/-- The value between its quotes: both of them are in it. -/
theorem quotedValue_total {quote : UInt8} (notBackslash : quote ≠ backslash)
    (notReturn : quote ≠ carriageReturn) (isOpening : src[start]? = some quote)
    (isClosing : src[stop]? = some quote) (ordered : start < stop) :
    ∃ value, unescape src quote (stop + 1) src.length start = some value ∧ 2 ≤ value.length := by
  obtain ⟨inside, -⟩ := List.getElem?_eq_some_iff.mp isClosing
  have lastByte (i : Nat) (isLast : i + 1 = stop + 1) : src[i]? ≠ some backslash := by
    rw [Nat.succ.inj isLast, isClosing]
    exact fun same => notBackslash (Option.some.inj same)
  obtain ⟨fuel, isFuel⟩ := Nat.exists_eq_add_of_lt inside
  obtain ⟨rest, isRest, nonempty⟩ := @unescape_total src (start + 1) (stop + 1) quote
    (src.length - 1) inside lastByte (by omega)
  have isSucc : src.length = src.length - 1 + 1 := by omega
  have before : start < stop + 1 := Nat.lt_succ_of_lt ordered
  have isValue : unescape src quote (stop + 1) src.length start = some (quote :: rest) := by
    rw [isSucc]
    simp [unescape, before, isOpening, notBackslash, notReturn, isRest]
  have restLength := List.length_pos_of_ne_nil (nonempty (Nat.succ_lt_succ ordered))
  exact ⟨quote :: rest, isValue, Nat.succ_le_succ restLength⟩

/-- A reader of quoted values finds none, or one with its two quotes in front of its position. -/
inductive ReadsQuoted (src : Text) (start : Nat) : Option (Option (Nat × Text)) → Prop
  | nothing : ReadsQuoted src start (some none)
  | value {behind : Nat} {value : Text} : start < behind → behind ≤ src.length →
      2 ≤ value.length → ReadsQuoted src start (some (some (behind, value)))

theorem quotedLoop_end {quote : UInt8} {fuel : Nat} (atEnd : src.length ≤ stop) :
    quotedLoop src quote start fuel stop = some none := by
  cases fuel with
  | zero => exact if_neg (Nat.not_lt.mpr atEnd)
  | succ fuel => exact if_neg (Nat.not_lt.mpr atEnd)

theorem quotedLoop_backslash {quote : UInt8} {fuel : Nat} (isByte : src[stop]? = some backslash) :
    quotedLoop src quote start (fuel + 1) stop = quotedLoop src quote start fuel (stop + 2) := by
  obtain ⟨inside, -⟩ := List.getElem?_eq_some_iff.mp isByte
  rw [quotedLoop, if_pos inside, isByte]
  rfl

theorem quotedLoop_other {quote c : UInt8} {fuel : Nat} (isByte : src[stop]? = some c)
    (notBackslash : c ≠ backslash) (notQuote : c ≠ quote) :
    quotedLoop src quote start (fuel + 1) stop = quotedLoop src quote start fuel (stop + 1) := by
  obtain ⟨inside, -⟩ := List.getElem?_eq_some_iff.mp isByte
  rw [quotedLoop, if_pos inside, isByte]
  simp [notBackslash, notQuote]

theorem quotedLoop_quote {quote : UInt8} {fuel : Nat} {closed : Bool}
    (isByte : src[stop]? = some quote) (notBackslash : quote ≠ backslash)
    (isClosed : isClosed src (stop + 1) (skipWhitespaces src (stop + 1)) = some closed) :
    quotedLoop src quote start (fuel + 1) stop =
      if closed then
        (unescape src quote (stop + 1) src.length start).map fun value =>
          some (skipWhitespaces src (stop + 1), value)
      else quotedLoop src quote start fuel (stop + 2) := by
  obtain ⟨inside, -⟩ := List.getElem?_eq_some_iff.mp isByte
  rw [quotedLoop, if_pos inside, isByte]
  cases closed with
  | true =>
      cases unescape src quote (stop + 1) src.length start with
      | none => simp [notBackslash, isClosed]
      | some value => simp [notBackslash, isClosed]
  | false => simp [notBackslash, isClosed]

theorem quotedLoop_reads {quote : UInt8} {fuel : Nat} (notBackslash : quote ≠ backslash)
    (notReturn : quote ≠ carriageReturn) (isOpening : src[start]? = some quote)
    (ordered : start < stop) (enough : src.length ≤ stop + fuel) :
    ReadsQuoted src start (quotedLoop src quote start fuel stop) := by
  induction fuel generalizing stop with
  | zero =>
      rw [quotedLoop_end (Nat.add_zero stop ▸ enough)]
      exact .nothing
  | succ fuel ih =>
      have nextButOne := @ih (stop + 2) (by omega) (by omega)
      rcases Nat.lt_or_ge stop src.length with inside | atEnd
      · obtain ⟨c, isByte⟩ := byte_exists inside
        by_cases isBackslash : c = backslash
        · subst isBackslash
          rw [quotedLoop_backslash isByte]
          exact nextButOne
        · by_cases isQuote : c = quote
          · subst isQuote
            have further : stop + 1 ≤ skipWhitespaces src (stop + 1) := scanWhile_ge
            have within : skipWhitespaces src (stop + 1) ≤ src.length := scanWhile_le inside
            obtain ⟨closed, isClosed⟩ := isClosed_total src further
            rw [quotedLoop_quote isByte notBackslash isClosed]
            cases closed with
            | true =>
                obtain ⟨value, isValue, twoQuotes⟩ :=
                  quotedValue_total notBackslash notReturn isOpening isByte ordered
                rw [isValue]
                exact .value (by omega) within twoQuotes
            | false => exact nextButOne
          · rw [quotedLoop_other isByte isBackslash isQuote]
            exact ih (by omega) (by omega)
      · rw [quotedLoop_end atEnd]
        exact .nothing

/-! ### Values -/

theorem parseUnquoted_total (inside : pos ≤ src.length) :
    ∃ behind value, parseUnquoted src pos = some (behind, value) ∧ pos ≤ behind ∧
      behind ≤ src.length := by
  unfold parseUnquoted
  dsimp only
  rw [slice_isSome scanWhile_ge (scanWhile_le inside)]
  exact ⟨_, _, rfl, scanWhile_ge, scanWhile_le inside⟩

theorem parseValue_total (isProcess : Bool) (inside : pos ≤ src.length) :
    ∃ behind value, parseValue isProcess src pos = some (behind, value) ∧ pos ≤ behind ∧
      behind ≤ src.length := by
  have further : pos ≤ skipWhitespaces src pos := scanWhile_ge
  have within : skipWhitespaces src pos ≤ src.length := scanWhile_le inside
  by_cases atEnd : skipWhitespaces src pos ≥ src.length
  · refine ⟨skipWhitespaces src pos, [], ?_, further, within⟩
    simp [parseValue, atEnd, slice]
  · obtain ⟨c, isByte⟩ := byte_exists (Nat.lt_of_not_le atEnd)
    by_cases quoted : isQuote c = true
    · have notBackslash : c ≠ backslash := by
        rintro rfl
        cases quoted
      have notReturn : c ≠ carriageReturn := by
        rintro rfl
        cases quoted
      have reads : ReadsQuoted src (skipWhitespaces src pos)
          (parseQuoted src c (skipWhitespaces src pos)) :=
        quotedLoop_reads notBackslash notReturn isByte (Nat.lt_succ_self _) (by omega)
      generalize isResult : parseQuoted src c (skipWhitespaces src pos) = result at reads
      cases reads with
      | nothing =>
          obtain ⟨behind, value, isValue, bounds⟩ := parseUnquoted_total inside
          exact ⟨behind, value, by simp [parseValue, atEnd, isByte, quoted, isResult, isValue],
            bounds⟩
      | @value behind value furtherStill withinStill twoQuotes =>
          cases isProcess with
          | true =>
              exact ⟨behind, value, by simp [parseValue, atEnd, isByte, quoted, isResult],
                by omega, withinStill⟩
          | false =>
              have inner : slice value 1 (value.length - 1) =
                  some ((value.drop 1).take (value.length - 1 - 1)) :=
                slice_isSome (by omega) (Nat.sub_le _ _)
              exact ⟨behind, (value.drop 1).take (value.length - 1 - 1),
                by simp [parseValue, atEnd, isByte, quoted, isResult, inner], by omega,
                withinStill⟩
    · obtain ⟨behind, value, isValue, bounds⟩ := parseUnquoted_total inside
      exact ⟨behind, value, by simp [parseValue, atEnd, isByte, quoted, isValue], bounds⟩

/-! ### The file -/

/-- Every turn of the loop takes a byte of the file. -/
theorem entriesFrom_total (isProcess : Bool) {fuel : Nat} (inside : pos ≤ src.length)
    (enough : src.length ≤ pos + fuel) :
    ∃ list, entriesFrom isProcess src fuel pos = some list := by
  induction fuel generalizing pos with
  | zero => exact ⟨[], if_neg (Nat.not_lt.mpr enough)⟩
  | succ fuel ih =>
      by_cases before : pos < src.length
      · have further : pos ≤ skipWhitespaces src pos := scanWhile_ge
        have within : skipWhitespaces src pos ≤ src.length := scanWhile_le inside
        have reads := parseKey_reads src pos
        generalize isKey : parseKey src pos = read at reads
        cases reads with
        | nothing =>
            obtain ⟨behind, isLine, lineWithin, takes⟩ := skipLine_total within
            have taken : pos < behind := by
              rcases Nat.lt_or_ge (skipWhitespaces src pos) src.length with more | atEnd
              · exact Nat.lt_of_le_of_lt further (takes more)
              · have lineEnd : skipLine src (skipWhitespaces src pos) = some src.length := by
                  rw [Nat.le_antisymm within atEnd]
                  simp [skipLine, slice]
                rw [lineEnd] at isLine
                exact Option.some.inj isLine ▸ before
            obtain ⟨list, isList⟩ := ih lineWithin (by omega)
            exact ⟨list, by simp [entriesFrom, before, isKey, isLine, isList]⟩
        | @key behind key keyFurther keyWithin =>
            obtain ⟨next, value, isValue, nextFurther, nextWithin⟩ :=
              parseValue_total isProcess keyWithin
            obtain ⟨list, isList⟩ := ih nextWithin (by omega)
            exact ⟨(key, value) :: list, by simp [entriesFrom, before, isKey, isValue, isList]⟩
      · exact ⟨[], by rw [entriesFrom, if_neg before]⟩

theorem entries_total (isProcess : Bool) (src : Text) :
    ∃ list, entries isProcess src = some list :=
  entriesFrom_total isProcess (Nat.zero_le _) (Nat.le_add_left _ _)

end Bunx.Dotenv
