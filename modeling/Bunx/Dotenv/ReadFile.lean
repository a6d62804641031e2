/-
Module: Bunx.Dotenv.ReadFile
Purpose: What the parser reads from a file of blank lines, comments and entries.
Trusted boundary: none
Main exports: ReadsFrom, Reads, reads_spaces, reads_comment, parseKey_key, Value.read,
  parseValue_read, reads_entry, reads_line, reads_file, entries_file
-/
import Bunx.Dotenv.EnvFile
import Bunx.Dotenv.ParseTotal

namespace Bunx.Dotenv

open Lib Utf8

/-! ### Scanning what is written -/

section Scan

variable {p : UInt8 → Bool} {front run rest text : Text}

theorem scanWhile_run (all : ∀ c ∈ run, p c = true)
    (stops : ∀ c, rest.head? = some c → p c = false) :
    scanWhile p (front ++ (run ++ rest)) front.length = front.length + run.length := by
  have stopped : rest.takeWhile p = [] := by
    cases rest with
    | nil => rfl
    | cons c rest => exact List.takeWhile_cons_of_neg (by rw [stops c rfl]; exact Bool.false_ne_true)
  unfold scanWhile
  rw [List.drop_left, List.takeWhile_append_of_pos all, stopped, List.append_nil]

theorem scanWhile_none (stops : ∀ c, text.head? = some c → p c = false) :
    scanWhile p (front ++ text) front.length = front.length :=
  @scanWhile_run p front [] text (fun c member => by cases member) stops

theorem slice_run :
    slice (front ++ (run ++ rest)) front.length (front.length + run.length) = some run := by
  rw [slice_isSome (Nat.le_add_right _ _) (by simp only [List.length_append]; omega),
    List.drop_left, Nat.add_sub_cancel_left, List.take_left]

theorem byte_at {c : UInt8} : (front ++ c :: text)[front.length]? = some c := by
  rw [List.getElem?_append_right (Nat.le_refl _), Nat.sub_self]
  rfl

end Scan

/-! ### Entries from a position on -/

/-- The entries that are read from a position on, given enough turns. -/
def ReadsFrom (src : Text) (pos : Nat) (list : List (Text × Text)) : Prop :=
  ∃ fuel, entriesFrom false src fuel pos = some list

variable {src : Text} {pos : Nat} {list : List (Text × Text)}

theorem entriesFrom_end {fuel : Nat} (atEnd : src.length ≤ pos) :
    entriesFrom false src fuel pos = some [] := by
  cases fuel with
  | zero => exact if_neg (Nat.not_lt.mpr atEnd)
  | succ fuel => exact if_neg (Nat.not_lt.mpr atEnd)

theorem entriesFrom_succ {fuel : Nat} (inside : pos < src.length) :
    entriesFrom false src (fuel + 1) pos =
      (parseKey src pos).bind fun read =>
        match read with
        | (behind, none) => (skipLine src behind).bind (entriesFrom false src fuel)
        | (behind, some key) => (parseValue false src behind).bind fun result =>
            (entriesFrom false src fuel result.1).map ((key, result.2) :: ·) := by
  rw [entriesFrom, if_pos inside]
  cases parseKey src pos with
  | none => rfl
  | some read =>
      obtain ⟨behind, found⟩ := read
      cases found with
      | none => rfl
      | some key =>
          cases isValue : parseValue false src behind with
          | none => simp [isValue]
          | some result =>
              cases more : entriesFrom false src fuel result.1 with
              | none => simp [isValue, more]
              | some list => simp [isValue, more]

/-- More turns than are needed change nothing. -/
theorem entriesFrom_mono {fuel : Nat} (isList : entriesFrom false src fuel pos = some list) :
    entriesFrom false src (fuel + 1) pos = some list := by
  induction fuel generalizing pos list with
  | zero =>
      rcases Nat.lt_or_ge pos src.length with inside | atEnd
      · rw [entriesFrom, if_pos inside] at isList
        cases isList
      · rw [entriesFrom_end atEnd] at isList ⊢
        exact isList
  | succ fuel ih =>
      rcases Nat.lt_or_ge pos src.length with inside | atEnd
      · rw [entriesFrom_succ inside] at isList ⊢
        obtain ⟨⟨behind, found⟩, isKey, isRest⟩ := Option.bind_eq_some_iff.mp isList
        rw [isKey]
        show (match (behind, found) with
          | (behind, none) => _
          | (behind, some key) => _) = _
        cases found with
        | none =>
            obtain ⟨next, isLine, isRest⟩ := Option.bind_eq_some_iff.mp isRest
            exact Option.bind_eq_some_iff.mpr ⟨next, isLine, ih isRest⟩
        | some key =>
            obtain ⟨result, isValue, isRest⟩ := Option.bind_eq_some_iff.mp isRest
            obtain ⟨rest, isRest, isCons⟩ := Option.map_eq_some_iff.mp isRest
            exact Option.bind_eq_some_iff.mpr ⟨result, isValue,
              Option.map_eq_some_iff.mpr ⟨rest, ih isRest, isCons⟩⟩
      · rw [entriesFrom_end atEnd] at isList ⊢
        exact isList

theorem ReadsFrom.enough {fuel : Nat} (reads : ReadsFrom src pos list)
    (inside : pos ≤ src.length) (enough : src.length ≤ pos + fuel) :
    entriesFrom false src fuel pos = some list := by
  obtain ⟨fuel', isList⟩ := reads
  obtain ⟨list', isList'⟩ := entriesFrom_total false inside enough
  have more (n more : Nat) {l : List (Text × Text)} (isSome : entriesFrom false src n pos = some l) :
      entriesFrom false src (n + more) pos = some l := by
    induction more with
    | zero => exact isSome
    | succ more ih => exact entriesFrom_mono ih
  have same : some list = some list' := by
    rw [← more fuel' fuel isList, ← more fuel fuel' isList', Nat.add_comm]
  rw [isList', same]

theorem ReadsFrom.unique {list' : List (Text × Text)} (inside : pos ≤ src.length)
    (reads : ReadsFrom src pos list) (reads' : ReadsFrom src pos list') : list = list' := by
  have isList := reads.enough inside (Nat.le_add_left _ pos)
  rw [reads'.enough inside (Nat.le_add_left _ pos)] at isList
  exact (Option.some.inj isList).symm

theorem ReadsFrom.total (inside : pos ≤ src.length) : ∃ list, ReadsFrom src pos list := by
  obtain ⟨list, isList⟩ := entriesFrom_total false inside (Nat.le_add_left src.length pos)
  exact ⟨list, src.length, isList⟩

theorem readsFrom_end (atEnd : src.length ≤ pos) : ReadsFrom src pos [] :=
  ⟨0, entriesFrom_end atEnd⟩

theorem readsFrom_entry {behind next : Nat} {key value : Text} (inside : pos < src.length)
    (isKey : parseKey src pos = some (behind, some key))
    (isValue : parseValue false src behind = some (next, value)) (reads : ReadsFrom src next list) :
    ReadsFrom src pos ((key, value) :: list) := by
  obtain ⟨fuel, isList⟩ := reads
  refine ⟨fuel + 1, ?_⟩
  rw [entriesFrom_succ inside, isKey]
  show (parseValue false src behind).bind _ = _
  rw [isValue]
  show (entriesFrom false src fuel next).map _ = _
  rw [isList]
  rfl

theorem readsFrom_nothing {behind next : Nat} (inside : pos < src.length)
    (isKey : parseKey src pos = some (behind, none)) (isLine : skipLine src behind = some next)
    (reads : ReadsFrom src next list) : ReadsFrom src pos list := by
  obtain ⟨fuel, isList⟩ := reads
  refine ⟨fuel + 1, ?_⟩
  rw [entriesFrom_succ inside, isKey]
  show (skipLine src behind).bind _ = _
  rw [isLine]
  exact isList

/-! ### White space -/

theorem skipWhitespaces_idem :
    skipWhitespaces src (skipWhitespaces src pos) = skipWhitespaces src pos := by
  have stopped : ((src.drop pos).dropWhile isWhitespace).takeWhile isWhitespace = [] := by
    have notFirst := List.head?_dropWhile_not isWhitespace (src.drop pos)
    cases isRest : (src.drop pos).dropWhile isWhitespace with
    | nil => rfl
    | cons c rest =>
        rw [isRest] at notFirst
        exact List.takeWhile_cons_of_neg (by rw [notFirst]; exact Bool.false_ne_true)
  have isDrop : src.drop (skipWhitespaces src pos) = (src.drop pos).dropWhile isWhitespace := by
    have isBehind : ((src.drop pos).takeWhile isWhitespace ++
        (src.drop pos).dropWhile isWhitespace).drop
          ((src.drop pos).takeWhile isWhitespace).length =
        (src.drop pos).dropWhile isWhitespace := List.drop_left
    rw [List.takeWhile_append_dropWhile, List.drop_drop] at isBehind
    exact isBehind
  calc skipWhitespaces src (skipWhitespaces src pos)
      = skipWhitespaces src pos +
          ((src.drop (skipWhitespaces src pos)).takeWhile isWhitespace).length := rfl
    _ = skipWhitespaces src pos := by
        rw [isDrop, stopped]
        rfl

/-- White space in front changes nothing. -/
theorem readsFrom_of_skip (inside : pos ≤ src.length)
    (reads : ReadsFrom src (skipWhitespaces src pos) list) : ReadsFrom src pos list := by
  have further : pos ≤ skipWhitespaces src pos := scanWhile_ge
  have within : skipWhitespaces src pos ≤ src.length := scanWhile_le inside
  have sameKey : parseKey src (skipWhitespaces src pos) = parseKey src pos := by
    unfold parseKey
    rw [skipWhitespaces_idem]
  obtain ⟨fuel, isList⟩ := reads
  have isList := entriesFrom_mono isList
  rcases Nat.lt_or_ge (skipWhitespaces src pos) src.length with before | atEnd
  · rw [entriesFrom_succ before, sameKey] at isList
    refine ⟨fuel + 1, ?_⟩
    rw [entriesFrom_succ (Nat.lt_of_le_of_lt further before)]
    exact isList
  · rw [entriesFrom_end atEnd] at isList
    obtain rfl : [] = list := Option.some.inj isList
    rcases Nat.lt_or_ge pos src.length with before | atEnd'
    · have isEnd : skipWhitespaces src pos = src.length := Nat.le_antisymm within atEnd
      have isKey : parseKey src pos = some (src.length, none) := by
        unfold parseKey parseKeyFrom
        rw [isEnd]
        have notInside : ¬ (scanWhile isKeyByte src src.length < src.length ∧
            src.length < scanWhile isKeyByte src src.length) := fun both =>
          Nat.lt_asymm both.1 both.2
        exact if_neg notInside
      have isLine : skipLine src src.length = some src.length := by
        simp [skipLine, slice]
      exact readsFrom_nothing before isKey isLine (readsFrom_end (Nat.le_refl _))
    · exact readsFrom_end atEnd'

theorem readsFrom_skip (inside : pos ≤ src.length) :
    ReadsFrom src (skipWhitespaces src pos) list ↔ ReadsFrom src pos list := by
  constructor
  · exact readsFrom_of_skip inside
  · intro reads
    obtain ⟨list', reads'⟩ := ReadsFrom.total (show skipWhitespaces src pos ≤ src.length from
      scanWhile_le inside)
    rw [ReadsFrom.unique inside reads (readsFrom_of_skip inside reads')]
    exact reads'

/-- The entries that are read from `tail` on, behind `front`. -/
def Reads (front tail : Text) (list : List (Text × Text)) : Prop :=
  ReadsFrom (front ++ tail) front.length list

variable {front rest : Text}

theorem length_le_append (front rest : Text) : front.length ≤ (front ++ rest).length := by
  rw [List.length_append]
  exact Nat.le_add_right _ _

theorem skipWhitespaces_front (front text : Text) : skipWhitespaces (front ++ text) front.length =
    (front ++ text.takeWhile isWhitespace).length := by
  unfold skipWhitespaces scanWhile
  rw [List.drop_left, List.length_append]

theorem byte_behind_spaces (front : Text) {text : Text} {c : UInt8}
    (isRest : text.dropWhile isWhitespace = c :: rest) :
    (front ++ text)[(front ++ text.takeWhile isWhitespace).length]? = some c := by
  have isText : front ++ text = front ++ text.takeWhile isWhitespace ++ c :: rest := by
    rw [List.append_assoc, ← isRest, List.takeWhile_append_dropWhile]
  rw [isText]
  exact byte_at

theorem skipWhitespaces_none (notSpace : ∀ c, rest.head? = some c → isWhitespace c = false) :
    skipWhitespaces (front ++ rest) front.length = front.length :=
  scanWhile_none notSpace

theorem reads_nil (front : Text) : Reads front [] [] :=
  readsFrom_end (Nat.le_of_eq (congrArg List.length (List.append_nil front)))

theorem reads_spaces {spaces : Text} (all : ∀ c ∈ spaces, isWhitespace c = true) :
    Reads front (spaces ++ rest) list ↔ Reads (front ++ spaces) rest list := by
  have sameSkip : skipWhitespaces (front ++ (spaces ++ rest)) front.length =
      skipWhitespaces (front ++ spaces ++ rest) (front ++ spaces).length := by
    rw [skipWhitespaces_front, skipWhitespaces_front, List.takeWhile_append_of_pos all,
      List.append_assoc]
  unfold Reads
  rw [← readsFrom_skip (length_le_append _ _), sameSkip, ← List.append_assoc,
    readsFrom_skip (length_le_append _ _)]

/-! ### Comments -/

/-- The file or the line is at its end. -/
def EndsLine (rest : Text) : Prop := ∀ c, rest.head? = some c → isLineBreak c = true

theorem isWhitespace_of_isLineBreak {c : UInt8} (isBreak : isLineBreak c = true) :
    isWhitespace c = true := by
  rcases Bool.or_eq_true_iff.mp isBreak with isNewline | isReturn
  · rw [of_decide_eq_true isNewline]
    rfl
  · rw [of_decide_eq_true isReturn]
    rfl

theorem parseKey_hash : parseKey (front ++ hash :: rest) front.length =
    some (front.length, none) := by
  have notSpace : ∀ c, (hash :: rest).head? = some c → isWhitespace c = false := by
    rintro c ⟨⟩
    rfl
  have notKey : ∀ c, (hash :: rest).head? = some c → isKeyByte c = false := by
    rintro c ⟨⟩
    rfl
  unfold parseKey parseKeyFrom
  rw [skipWhitespaces_none notSpace, scanWhile_none notKey]
  exact if_neg fun both => Nat.lt_irrefl _ both.2

theorem reads_comment {note : Text} (oneLine : ∀ c ∈ note, isLineBreak c = false)
    (ends : EndsLine rest) (reads : Reads (front ++ hash :: note) rest list) :
    Reads front (hash :: (note ++ rest)) list := by
  have inside : front.length < (front ++ hash :: (note ++ rest)).length := by
    simp only [List.length_append, List.length_cons]
    omega
  have isRest : slice (front ++ hash :: (note ++ rest)) front.length
      (front ++ hash :: (note ++ rest)).length = some (hash :: (note ++ rest)) := by
    rw [slice_isSome (Nat.le_of_lt inside) (Nat.le_refl _), List.drop_left,
      List.take_of_length_le (by simp only [List.length_append]; omega)]
  have noBreak : (hash :: note).findIdx? isLineBreak = none := by
    rw [List.findIdx?_eq_none_iff]
    intro c member
    rcases List.mem_cons.mp member with rfl | inNote
    · rfl
    · exact oneLine c inNote
  have isLine : skipLine (front ++ hash :: (note ++ rest)) front.length =
      match rest with
      | [] => some (front ++ hash :: note).length
      | _ :: _ => some ((front ++ hash :: note).length + 1) := by
    unfold skipLine
    rw [isRest, Option.bind_eq_bind, Option.bind_some, ← List.cons_append,
      List.findIdx?_append, noBreak]
    cases rest with
    | nil => simp
    | cons b more =>
        have isBreak := ends b rfl
        simp [List.findIdx?_cons, isBreak]
        omega
  unfold Reads at reads
  cases rest with
  | nil =>
      refine readsFrom_nothing inside parseKey_hash isLine ?_
      rwa [List.append_assoc] at reads
  | cons b more =>
      have spaces : ∀ c ∈ [b], isWhitespace c = true := by
        intro c member
        rw [List.mem_singleton.mp member]
        exact isWhitespace_of_isLineBreak (ends b rfl)
      have further : Reads (front ++ hash :: note ++ [b]) more list := (reads_spaces spaces).mp reads
      refine readsFrom_nothing inside parseKey_hash isLine ?_
      unfold Reads at further
      rw [List.append_assoc, List.append_assoc] at further
      simpa only [List.length_append, List.length_cons, List.length_nil, List.cons_append,
        List.nil_append, Nat.add_assoc] using further

/-! ### Keys -/

theorem isQuote_cases {b : UInt8} (isOne : isQuote b = true) :
    b = backtick ∨ b = doubleQuote ∨ b = singleQuote := by
  simpa only [isQuote, Bool.or_eq_true, decide_eq_true_eq, or_assoc] using isOne

/-- A byte of a key is neither white space nor a quote. -/
theorem isWhitespace_of_isKeyByte {c : UInt8} (isKey : isKeyByte c = true) :
    isWhitespace c = false ∧ isQuote c = false := by
  constructor
  · by_contra isSpace
    rw [Bool.not_eq_false] at isSpace
    rcases isWhitespace_cases isSpace with rfl | rfl | rfl | rfl | rfl | rfl | rfl
    · cases isKey
    · cases isKey
    · cases isKey
    · cases isKey
    · cases isKey
    · cases isKey
    · cases isKey
  · by_contra isOne
    rw [Bool.not_eq_false] at isOne
    rcases isQuote_cases isOne with rfl | rfl | rfl
    · cases isKey
    · cases isKey
    · cases isKey

theorem parseKeyFrom_key (key : Key) (exported : Nat → Option (Nat × Option Text)) (more : Text) :
    parseKeyFrom (front ++ (key.bytes ++ equals :: more)) exported front.length =
      some ((front ++ (key.bytes ++ [equals])).length, some key.bytes) := by
  have notKey : ∀ c, (equals :: more).head? = some c → isKeyByte c = false := by
    rintro c ⟨⟩
    rfl
  have notSpace : ∀ c, (equals :: more).head? = some c → isWhitespace c = false := by
    rintro c ⟨⟩
    rfl
  have isStop : scanWhile isKeyByte (front ++ (key.bytes ++ equals :: more)) front.length =
      front.length + key.bytes.length := scanWhile_run key.isKey notKey
  have positive : 0 < key.bytes.length := List.length_pos_of_ne_nil key.nonempty
  have inside : front.length + key.bytes.length <
      (front ++ (key.bytes ++ equals :: more)).length := by
    simp only [List.length_append, List.length_cons]
    omega
  have noSkip : skipWhitespaces (front ++ (key.bytes ++ equals :: more))
      (front.length + key.bytes.length) = front.length + key.bytes.length := by
    rw [← List.append_assoc, ← List.length_append]
    exact skipWhitespaces_none notSpace
  have isByte : (front ++ (key.bytes ++ equals :: more))[front.length + key.bytes.length]? =
      some equals := by
    rw [← List.append_assoc, ← List.length_append]
    exact byte_at
  have both : front.length + key.bytes.length < (front ++ (key.bytes ++ equals :: more)).length ∧
      front.length < front.length + key.bytes.length := ⟨inside, by omega⟩
  have notBehind : ¬ (front.length + key.bytes.length < front.length + key.bytes.length ∧
      key.bytes = exportWord) := fun both => Nat.lt_irrefl _ both.1
  unfold parseKeyFrom
  rw [isStop]
  dsimp only
  rw [if_pos both, noSkip, if_pos inside, slice_run]
  show (if _ then _ else _) = _
  rw [if_neg notBehind]
  unfold behindKey
  rw [isByte]
  simp [Nat.add_assoc]

theorem parseKey_key (key : Key) (more : Text) :
    parseKey (front ++ (key.bytes ++ equals :: more)) front.length =
      some ((front ++ (key.bytes ++ [equals])).length, some key.bytes) := by
  have notSpace : ∀ c, (key.bytes ++ equals :: more).head? = some c → isWhitespace c = false := by
    intro c isHead
    rw [List.head?_append_of_ne_nil _ key.nonempty] at isHead
    exact (isWhitespace_of_isKeyByte (key.isKey c (List.mem_of_head? isHead))).1
  unfold parseKey
  rw [skipWhitespaces_none notSpace]
  exact parseKeyFrom_key key _ more

theorem parseKey_export (key : Key) (more : Text) :
    parseKey (front ++ (exportText true ++ (key.bytes ++ equals :: more))) front.length =
      some ((front ++ (exportText true ++ (key.bytes ++ [equals]))).length, some key.bytes) := by
  have isText : exportText true ++ (key.bytes ++ equals :: more) =
      exportWord ++ ([space] ++ (key.bytes ++ equals :: more)) := List.append_assoc _ _ _
  have notSpace : ∀ c, (exportWord ++ ([space] ++ (key.bytes ++ equals :: more))).head? = some c →
      isWhitespace c = false := by
    rintro c ⟨⟩
    rfl
  have notKey : ∀ c, ([space] ++ (key.bytes ++ equals :: more)).head? = some c →
      isKeyByte c = false := by
    rintro c ⟨⟩
    rfl
  have keyNotSpace : ∀ c, (key.bytes ++ equals :: more).head? = some c →
      isWhitespace c = false := by
    intro c isHead
    rw [List.head?_append_of_ne_nil _ key.nonempty] at isHead
    exact (isWhitespace_of_isKeyByte (key.isKey c (List.mem_of_head? isHead))).1
  have isSpace : ∀ c ∈ [space], isWhitespace c = true := by
    intro c member
    rw [List.mem_singleton.mp member]
    rfl
  rw [isText]
  have isStop : scanWhile isKeyByte
      (front ++ (exportWord ++ ([space] ++ (key.bytes ++ equals :: more)))) front.length =
        front.length + exportWord.length :=
    scanWhile_run (List.all_eq_true.mp (show exportWord.all isKeyByte = true from rfl)) notKey
  have isPos : skipWhitespaces (front ++ (exportWord ++ ([space] ++ (key.bytes ++ equals :: more))))
      (front.length + exportWord.length) = (front ++ exportText true).length := by
    rw [← List.append_assoc, ← List.length_append]
    refine (scanWhile_run isSpace keyNotSpace).trans ?_
    simp [exportText, Nat.add_assoc]
  have isExported : parseExported
      (front ++ (exportWord ++ ([space] ++ (key.bytes ++ equals :: more))))
      (front ++ exportText true).length =
        some ((front ++ (exportText true ++ (key.bytes ++ [equals]))).length, some key.bytes) := by
    rw [← isText, ← List.append_assoc, ← List.append_assoc front]
    exact parseKeyFrom_key key _ more
  have lengths : (front ++ (exportWord ++ ([space] ++ (key.bytes ++ equals :: more)))).length =
      front.length + exportWord.length + (1 + (key.bytes.length + (more.length + 1))) := by
    simp only [List.length_append, List.length_cons, List.length_nil]
    omega
  have exportLength : (front ++ exportText true).length = front.length + exportWord.length + 1 := by
    simp [exportText, Nat.add_assoc]
  have isSome : 0 < exportWord.length := by decide
  unfold parseKey
  rw [skipWhitespaces_none notSpace]
  unfold parseKeyFrom
  rw [isStop]
  dsimp only
  rw [if_pos ⟨by omega, by omega⟩, isPos, if_pos (by omega), slice_run]
  show (if _ then _ else _) = _
  rw [if_pos ⟨by omega, rfl⟩, isExported]
  rfl

/-! ### Values -/

/-- What the reader makes of a value: it takes bytes for white space, and not characters. -/
def Value.read : Value → Text
  | .unquoted text => (encode text.chars).rdropWhile isWhitespace
  | .quoted _ text => encode text.chars

/-- A value ends with its line, or with a comment. -/
def EndsValue (after : Text) : Prop :=
  EndsLine after ∨ ∃ more, after = space :: hash :: more

/-- The next byte that is not white space does not begin a quoted value. -/
def NoQuoteNext (text : Text) : Prop :=
  ∀ c, (text.dropWhile isWhitespace).head? = some c → isQuote c = false

theorem quotedLoop_run {quote : UInt8} {run : Text} (front rest : Text) (start fuel : Nat)
    (plain : ∀ c ∈ run, c ≠ backslash ∧ c ≠ quote) :
    quotedLoop (front ++ (run ++ rest)) quote start (run.length + fuel) front.length =
      quotedLoop (front ++ (run ++ rest)) quote start fuel (front.length + run.length) := by
  induction run generalizing front with
  | nil => rw [List.length_nil, Nat.zero_add, Nat.add_zero]
  | cons c run ih =>
      obtain ⟨notBackslash, notQuote⟩ := plain c (List.mem_cons_self ..)
      have further := ih (front ++ [c])
        fun d member => plain d (List.mem_cons_of_mem _ member)
      rw [List.append_assoc, List.length_append, List.length_singleton] at further
      rw [List.length_cons, Nat.add_right_comm, List.cons_append,
        quotedLoop_other byte_at notBackslash notQuote]
      simpa only [List.singleton_append, Nat.add_assoc, Nat.add_comm 1] using further

theorem unescape_run {quote : UInt8} {run : Text} {fuel : Nat}
    (plain : ∀ c ∈ run, c ≠ backslash ∧ c ≠ carriageReturn) :
    unescape (front ++ (run ++ rest)) quote (front.length + run.length) (run.length + fuel)
      front.length = some run := by
  induction run generalizing front with
  | nil =>
      rw [List.length_nil, Nat.zero_add, Nat.add_zero]
      cases fuel with
      | zero => exact if_neg (Nat.lt_irrefl _)
      | succ fuel => exact if_neg (Nat.lt_irrefl _)
  | cons c run ih =>
      obtain ⟨notBackslash, notReturn⟩ := plain c (List.mem_cons_self ..)
      have further := @ih (front ++ [c])
        fun d member => plain d (List.mem_cons_of_mem _ member)
      rw [List.append_assoc, List.length_append, List.length_singleton, List.singleton_append,
        Nat.add_assoc, Nat.add_comm 1] at further
      have before : front.length < front.length + (run.length + 1) :=
        Nat.lt_add_of_pos_right (Nat.succ_pos _)
      rw [List.length_cons, Nat.add_right_comm, List.cons_append, unescape, if_pos before, byte_at]
      simp [notBackslash, notReturn, further]

theorem isClosed_read (front : Text) {after : Text} (ends : EndsValue after) :
    isClosed (front ++ after) front.length (skipWhitespaces (front ++ after) front.length) =
      some true := by
  unfold isClosed
  split
  · rfl
  · next notEnd =>
    have inside := Nat.lt_of_not_le notEnd
    have isSkip := skipWhitespaces_front front after
    cases after with
    | nil =>
        rw [isSkip] at inside
        exact absurd inside (Nat.lt_irrefl _)
    | cons b more =>
        rcases ends with ends | ⟨more', isNote⟩
        · have isBreak := ends b rfl
          have isSpace := isWhitespace_of_isLineBreak isBreak
          obtain ⟨c, isByte⟩ := byte_exists inside
          have isSlice : slice (front ++ b :: more) front.length
              (skipWhitespaces (front ++ b :: more) front.length) =
                some ((b :: more).takeWhile isWhitespace) := by
            rw [isSkip, List.length_append]
            have whole := List.takeWhile_append_dropWhile (p := isWhitespace) (l := b :: more)
            have cut := @slice_run front ((b :: more).takeWhile isWhitespace)
              ((b :: more).dropWhile isWhitespace)
            rwa [whole] at cut
          rw [isByte, isSlice, List.takeWhile_cons_of_pos isSpace]
          simp [isBreak]
        · obtain ⟨rfl, rfl⟩ := List.cons.inj isNote
          have isPos : skipWhitespaces (front ++ space :: hash :: more') front.length =
              (front ++ [space]).length := isSkip
          have isByte : (front ++ space :: hash :: more')[(front ++ [space]).length]? =
              some hash := by
            rw [List.append_cons]
            exact byte_at
          rw [isPos, isByte]
          rfl

theorem Quote.isQuote (quote : Quote) : isQuote quote.byte = true := by
  cases quote with
  | double => rfl
  | single => rfl
  | backtick => rfl

theorem quote_plain {b : UInt8} (isOne : isQuote b = true) :
    b ≠ backslash ∧ b ≠ carriageReturn ∧ isWhitespace b = false := by
  rcases isQuote_cases isOne with rfl | rfl | rfl
  · exact ⟨by decide, by decide, rfl⟩
  · exact ⟨by decide, by decide, rfl⟩
  · exact ⟨by decide, by decide, rfl⟩

theorem Quote.ascii (quote : Quote) :
    [quote.byte, backslash, carriageReturn, dollar].all (fun b => decide (b.toNat < 0x80)) =
      true := by
  cases quote with
  | double => rfl
  | single => rfl
  | backtick => rfl

theorem Quoted.plain_bytes {quote : Quote} (text : Quoted quote) :
    ∀ b ∈ encode text.chars, b ≠ quote.byte ∧ b ≠ backslash ∧ b ≠ carriageReturn := by
  intro b member
  have notOne := encode_avoids quote.ascii text.plain b member
  simp only [List.mem_cons, not_or] at notOne
  exact ⟨notOne.1, notOne.2.1, notOne.2.2.1⟩

theorem parseQuoted_read {quote : Quote} (text : Quoted quote) {after : Text}
    (ends : EndsValue after) :
    parseQuoted (front ++ ((Value.quoted quote text).text ++ after)) quote.byte front.length =
      some (some ((front ++ ((Value.quoted quote text).text ++ after.takeWhile isWhitespace)).length,
        (Value.quoted quote text).text)) := by
  obtain ⟨notBackslash, notReturn, -⟩ := quote_plain quote.isQuote
  have plain := text.plain_bytes
  have runPlain : ∀ c ∈ encode text.chars, c ≠ backslash ∧ c ≠ quote.byte :=
    fun c member => ⟨(plain c member).2.1, (plain c member).1⟩
  have wholePlain : ∀ c ∈ (Value.quoted quote text).text, c ≠ backslash ∧ c ≠ carriageReturn := by
    intro c member
    rcases List.mem_cons.mp member with rfl | inRest
    · exact ⟨notBackslash, notReturn⟩
    · rcases List.mem_append.mp inRest with inText | isLast
      · exact (plain c inText).2
      · rw [List.mem_singleton.mp isLast]
        exact ⟨notBackslash, notReturn⟩
  -- the text behind its opening quote
  have isSrc : front ++ ((Value.quoted quote text).text ++ after) =
      front ++ [quote.byte] ++ (encode text.chars ++ quote.byte :: after) := by
    simp [Value.text]
  have lengths : (front ++ ((Value.quoted quote text).text ++ after)).length =
      (encode text.chars).length + (front.length + after.length + 1 + 1) := by
    rw [isSrc]
    simp only [List.length_append, List.length_cons, List.length_nil]
    omega
  have closingPos : front.length + 1 + (encode text.chars).length =
      (front ++ [quote.byte] ++ encode text.chars).length := by
    simp only [List.length_append, List.length_cons, List.length_nil]
  have isClosing : (front ++ ((Value.quoted quote text).text ++ after))[
      front.length + 1 + (encode text.chars).length]? = some quote.byte := by
    rw [isSrc, closingPos, ← List.append_assoc]
    exact byte_at
  have behindPos : front.length + 1 + (encode text.chars).length + 1 =
      (front ++ (Value.quoted quote text).text).length := by
    simp only [Value.text, List.length_append, List.length_cons, List.length_nil]
    omega
  have closed := isClosed_read (front ++ (Value.quoted quote text).text) ends
  have isSkip := skipWhitespaces_front (front ++ (Value.quoted quote text).text) after
  rw [List.append_assoc] at closed isSkip
  have wholeLength : (front ++ (Value.quoted quote text).text).length =
      front.length + (Value.quoted quote text).text.length := List.length_append
  have isValue : unescape (front ++ ((Value.quoted quote text).text ++ after)) quote.byte
      (front ++ (Value.quoted quote text).text).length
      (front ++ ((Value.quoted quote text).text ++ after)).length front.length =
        some (Value.quoted quote text).text := by
    obtain ⟨more, isMore⟩ : ∃ more, (front ++ ((Value.quoted quote text).text ++ after)).length =
        (Value.quoted quote text).text.length + more := by
      refine ⟨front.length + after.length, ?_⟩
      simp only [List.length_append]
      omega
    rw [isMore, wholeLength]
    exact unescape_run wholePlain
  unfold parseQuoted
  have run := quotedLoop_run (front ++ [quote.byte]) (quote.byte :: after) front.length
    (front.length + after.length + 1 + 1) runPlain
  rw [← isSrc, List.length_append, List.length_singleton] at run
  rw [lengths, run, quotedLoop_quote isClosing notBackslash (by rw [behindPos]; exact closed),
    behindPos, isValue, isSkip, if_pos rfl]
  simp only [List.append_assoc, Option.map_some]

theorem parseValue_quoted {quote : Quote} (text : Quoted quote) {after : Text}
    (ends : EndsValue after) :
    parseValue false (front ++ ((Value.quoted quote text).text ++ after)) front.length =
      some ((front ++ ((Value.quoted quote text).text ++ after.takeWhile isWhitespace)).length,
        encode text.chars) := by
  obtain ⟨-, -, notSpace⟩ := quote_plain quote.isQuote
  have noSkip : skipWhitespaces (front ++ ((Value.quoted quote text).text ++ after))
      front.length = front.length := by
    apply skipWhitespaces_none
    rintro c ⟨⟩
    exact notSpace
  have inside : ¬ front.length ≥ (front ++ ((Value.quoted quote text).text ++ after)).length := by
    simp only [Value.text, List.length_append, List.length_cons]
    omega
  have isByte : (front ++ ((Value.quoted quote text).text ++ after))[front.length]? =
      some quote.byte := byte_at
  have inner : slice (Value.quoted quote text).text 1
      ((Value.quoted quote text).text.length - 1) = some (encode text.chars) := by
    have cut := @slice_run [quote.byte] (encode text.chars) [quote.byte]
    have length : (Value.quoted quote text).text.length - 1 =
        [quote.byte].length + (encode text.chars).length := by
      simp only [Value.text, List.length_append, List.length_cons, List.length_nil]
      omega
    rw [length]
    exact cut
  unfold parseValue
  dsimp only
  rw [noSkip, if_neg inside, isByte]
  simp [quote.isQuote, parseQuoted_read text ends, inner]

theorem Unquoted.plain_bytes (text : Unquoted) :
    ∀ b ∈ encode text.chars, isUnquoted b = true ∧ isQuote b = false := by
  intro b member
  have notOne := encode_avoids rfl text.plain b member
  simp only [List.mem_cons, not_or] at notOne
  obtain ⟨notDouble, notSingle, notBacktick, notHash, notNewline, notReturn, -⟩ := notOne
  constructor
  · simp [isUnquoted, notHash, notNewline, notReturn]
  · simp [isQuote, notDouble, notSingle, notBacktick]

theorem Unquoted.head_plain (text : Unquoted) :
    ∀ c, (encode text.chars).head? = some c → isWhitespace c = false :=
  fun _ => encode_head text.noSpaceInFront

/-- The white space between a value and what ends it. -/
theorem gap_exists {after : Text} (ends : EndsValue after) :
    ∃ gap more, after = gap ++ more ∧ (gap = [] ∨ gap = [space]) ∧
      ∀ c, more.head? = some c → isUnquoted c = false := by
  rcases ends with ends | ⟨more, rfl⟩
  · refine ⟨[], after, rfl, .inl rfl, ?_⟩
    intro c isHead
    rcases Bool.or_eq_true_iff.mp (ends c isHead) with isNewline | isReturn
    · rw [of_decide_eq_true isNewline]
      rfl
    · rw [of_decide_eq_true isReturn]
      rfl
  · refine ⟨[space], hash :: more, rfl, .inr rfl, ?_⟩
    rintro c ⟨⟩
    rfl

theorem trim_gap (text : Unquoted) {gap : Text} (isGap : gap = [] ∨ gap = [space]) :
    trim (encode text.chars ++ gap) = (encode text.chars).rdropWhile isWhitespace := by
  have dropped : (encode text.chars ++ gap).rdropWhile isWhitespace =
      (encode text.chars).rdropWhile isWhitespace := by
    rcases isGap with rfl | rfl
    · rw [List.append_nil]
    · exact List.rdropWhile_concat_pos _ _ _ rfl
  unfold trim
  cases isText : encode text.chars with
  | nil =>
      rcases isGap with rfl | rfl
      · rfl
      · rfl
  | cons c rest =>
      have notSpace := text.head_plain c (by rw [isText]; rfl)
      rw [List.cons_append, List.dropWhile_cons_of_neg (by rw [notSpace]; exact Bool.false_ne_true),
        ← List.cons_append, ← isText, dropped]

theorem parseUnquoted_read (text : Unquoted) {gap more : Text} (isGap : gap = [] ∨ gap = [space])
    (stops : ∀ c, more.head? = some c → isUnquoted c = false) :
    parseUnquoted (front ++ (encode text.chars ++ (gap ++ more))) front.length =
      some ((front ++ (encode text.chars ++ gap)).length,
        (encode text.chars).rdropWhile isWhitespace) := by
  have passed : ∀ c ∈ encode text.chars ++ gap, isUnquoted c = true := by
    intro c member
    rcases List.mem_append.mp member with inText | inGap
    · exact (text.plain_bytes c inText).1
    · rcases isGap with rfl | rfl
      · cases inGap
      · rw [List.mem_singleton.mp inGap]
        rfl
  have isStop : scanWhile isUnquoted (front ++ (encode text.chars ++ gap ++ more)) front.length =
      front.length + (encode text.chars ++ gap).length := scanWhile_run passed stops
  unfold parseUnquoted
  rw [← List.append_assoc (encode text.chars), isStop]
  dsimp only
  rw [slice_run]
  simp only [Option.bind_eq_bind, Option.bind_some, trim_gap text isGap, List.length_append,
    Option.pure_def]

theorem parseValue_unquoted (text : Unquoted) {after : Text} (ends : EndsValue after)
    (noQuote : NoQuoteNext after) :
    ∃ gap more, after = gap ++ more ∧ (∀ c ∈ gap, isWhitespace c = true) ∧
      parseValue false (front ++ (encode text.chars ++ after)) front.length =
        some ((front ++ (encode text.chars ++ gap)).length,
          (encode text.chars).rdropWhile isWhitespace) := by
  have isSkip := skipWhitespaces_front front (encode text.chars ++ after)
  have whole := List.takeWhile_append_dropWhile (p := isWhitespace) (l := encode text.chars ++ after)
  cases isRest : (encode text.chars ++ after).dropWhile isWhitespace with
  | nil =>
      -- there is nothing but white space up to the end of the file
      rw [isRest, List.append_nil] at whole
      have allSpace : ∀ c ∈ encode text.chars ++ after, isWhitespace c = true := by
        rw [← whole]
        exact fun c member => List.mem_takeWhile_imp member
      have isEmpty : encode text.chars = [] := by
        cases isText : encode text.chars with
        | nil => rfl
        | cons c rest =>
            have notSpace := text.head_plain c (by rw [isText]; rfl)
            rw [allSpace c (by rw [isText]; exact List.mem_cons_self ..)] at notSpace
            cases notSpace
      refine ⟨after, [], (List.append_nil _).symm,
        fun c member => allSpace c (List.mem_append_right _ member), ?_⟩
      rw [whole] at isSkip
      unfold parseValue
      dsimp only
      rw [isSkip, if_pos (Nat.le_refl _), slice_isSome (Nat.le_refl _) (Nat.le_refl _), isEmpty]
      simp
  | cons c rest =>
      have notQuote : isQuote c = false := by
        cases isText : encode text.chars with
        | nil =>
            rw [isText, List.nil_append] at isRest
            exact noQuote c (by rw [isRest]; rfl)
        | cons d more =>
            have notSpace := text.head_plain d (by rw [isText]; rfl)
            rw [isText, List.cons_append,
              List.dropWhile_cons_of_neg (by rw [notSpace]; exact Bool.false_ne_true)] at isRest
            obtain ⟨rfl, -⟩ := List.cons.inj isRest
            exact (text.plain_bytes d (by rw [isText]; exact List.mem_cons_self ..)).2
      have isByte := byte_behind_spaces front isRest
      obtain ⟨gap, more, rfl, isGap, stops⟩ := gap_exists ends
      refine ⟨gap, more, rfl, ?_, ?_⟩
      · rcases isGap with rfl | rfl
        · intro d member
          cases member
        · intro d member
          rw [List.mem_singleton.mp member]
          rfl
      · have inside := (List.getElem?_eq_some_iff.mp isByte).1
        unfold parseValue
        dsimp only
        rw [isSkip, if_neg (Nat.not_le_of_lt inside), isByte]
        simp [notQuote, parseUnquoted_read text isGap stops]

theorem parseValue_read (front : Text) (value : Value) {after : Text} (ends : EndsValue after)
    (noQuote : NoQuoteNext after) :
    ∃ gap more, after = gap ++ more ∧ (∀ c ∈ gap, isWhitespace c = true) ∧
      parseValue false (front ++ (value.text ++ after)) front.length =
        some ((front ++ (value.text ++ gap)).length, value.read) := by
  cases value with
  | unquoted text => exact parseValue_unquoted text ends noQuote
  | quoted quote text =>
      exact ⟨after.takeWhile isWhitespace, after.dropWhile isWhitespace,
        List.takeWhile_append_dropWhile.symm, fun c member => List.mem_takeWhile_imp member,
        parseValue_quoted text ends⟩

/-! ### Lines -/

theorem Comment.oneLine_bytes (note : Comment) :
    ∀ b ∈ encode note.chars, isLineBreak b = false := by
  intro b member
  have notOne := encode_avoids rfl note.oneLine b member
  simp only [List.mem_cons, not_or] at notOne
  simp [isLineBreak, notOne.1, notOne.2.1]

theorem noQuoteNext_of_head {text : Text} {c : UInt8} (isHead : text.head? = some c)
    (notSpace : isWhitespace c = false) (notQuote : isQuote c = false) : NoQuoteNext text := by
  cases text with
  | nil => cases isHead
  | cons d rest =>
      obtain rfl : d = c := Option.some.inj isHead
      intro e isFirst
      rw [List.dropWhile_cons_of_neg (by rw [notSpace]; exact Bool.false_ne_true)] at isFirst
      rw [← Option.some.inj isFirst]
      exact notQuote

theorem noQuoteNext_spaces {spaces text : Text} (all : ∀ c ∈ spaces, isWhitespace c = true) :
    NoQuoteNext (spaces ++ text) ↔ NoQuoteNext text := by
  unfold NoQuoteNext
  rw [List.dropWhile_append_of_pos all]

/-- A note behind a value is read over. -/
theorem reads_note (note : Option Comment) (ends : EndsLine rest)
    (reads : Reads (front ++ noteText note) rest list) : Reads front (noteText note ++ rest) list := by
  cases note with
  | none => simpa only [noteText, List.nil_append, List.append_nil] using reads
  | some note =>
      have isSpace : ∀ c ∈ [space], isWhitespace c = true := by
        intro c member
        rw [List.mem_singleton.mp member]
        rfl
      apply (@reads_spaces list front (note.text ++ rest) [space] isSpace).mpr
      apply reads_comment note.oneLine_bytes ends
      simpa only [noteText, Comment.text, List.append_assoc, List.singleton_append] using reads

theorem noQuote_note (note : Option Comment) (noQuote : NoQuoteNext rest) :
    NoQuoteNext (noteText note ++ rest) := by
  cases note with
  | none => exact noQuote
  | some note =>
      have isSpace : ∀ c ∈ [space], isWhitespace c = true := by
        intro c member
        rw [List.mem_singleton.mp member]
        rfl
      exact (noQuoteNext_spaces isSpace).mpr (noQuoteNext_of_head rfl rfl rfl)

theorem endsValue_note (note : Option Comment) (ends : EndsLine rest) :
    EndsValue (noteText note ++ rest) := by
  cases note with
  | none => exact .inl ends
  | some note => exact .inr ⟨encode note.chars ++ rest, rfl⟩

/-- An entry is read as its key and what the reader makes of its value. -/
theorem reads_entry (exported : Bool) (key : Key) (value : Value) (note : Option Comment)
    (ends : EndsLine rest) (noQuote : NoQuoteNext rest)
    (reads : Reads (front ++ (Line.entry exported key value note).text) rest list) :
    Reads front ((Line.entry exported key value note).text ++ rest)
      ((key.bytes, value.read) :: list) := by
  have isSrc : front ++ ((Line.entry exported key value note).text ++ rest) =
      front ++ (exportText exported ++ (key.bytes ++ [equals])) ++
        (value.text ++ (noteText note ++ rest)) := by
    simp [Line.text]
  have isKey : parseKey (front ++ ((Line.entry exported key value note).text ++ rest))
      front.length = some ((front ++ (exportText exported ++ (key.bytes ++ [equals]))).length,
        some key.bytes) := by
    have isText : (Line.entry exported key value note).text ++ rest = exportText exported ++
        (key.bytes ++ equals :: (value.text ++ (noteText note ++ rest))) := by
      simp [Line.text]
    rw [isText]
    cases exported with
    | true => exact parseKey_export key _
    | false => exact parseKey_key key _
  obtain ⟨gap, more, isAfter, allSpace, isValue⟩ := parseValue_read
    (front ++ (exportText exported ++ (key.bytes ++ [equals]))) value
    (endsValue_note note ends) (noQuote_note note noQuote)
  rw [← isSrc] at isValue
  have inside : front.length < (front ++ ((Line.entry exported key value note).text ++ rest)).length := by
    have positive : 0 < key.bytes.length := List.length_pos_of_ne_nil key.nonempty
    rw [isSrc]
    simp only [List.length_append]
    omega
  -- what is left behind the value is read with or without the white space that was passed
  have further : Reads (front ++ (exportText exported ++ (key.bytes ++ [equals])) ++ value.text)
      (noteText note ++ rest) list := by
    apply reads_note note ends
    simpa only [Line.text, List.append_assoc, List.cons_append, List.nil_append] using reads
  rw [isAfter] at further
  have behind := (reads_spaces allSpace).mp further
  refine readsFrom_entry inside isKey isValue ?_
  unfold Reads at behind
  rw [isSrc, isAfter]
  simpa only [List.append_assoc] using behind

theorem Blank.isSpace (spaces : Blank) : ∀ c ∈ spaces.bytes, isWhitespace c = true := by
  have all : ([0x09, 0x0B, 0x0C, 0x20] : List UInt8).all isWhitespace = true := rfl
  exact fun c member => List.all_eq_true.mp all c (spaces.isBlank c member)

theorem LineEnd.isBreak (lineEnd : LineEnd) : ∀ c ∈ lineEnd.text, isLineBreak c = true := by
  apply List.all_eq_true.mp
  cases lineEnd with
  | newline => rfl
  | carriageReturn => rfl
  | both => rfl

theorem LineEnd.ends (lineEnd : LineEnd) (rest : Text) : EndsLine (lineEnd.text ++ rest) := by
  cases lineEnd with
  | newline => rintro c ⟨⟩; rfl
  | carriageReturn => rintro c ⟨⟩; rfl
  | both => rintro c ⟨⟩; rfl

/-- The keys of entries, and what the reader makes of their values. -/
def readOf (list : List (Text × Value)) : List (Text × Text) := list.map fun e => (e.1, e.2.read)

theorem reads_line (front rest : Text) (line : Line) (ends : EndsLine rest) (noQuote : NoQuoteNext rest)
    (reads : Reads (front ++ line.text) rest list) :
    Reads front (line.text ++ rest) (readOf line.entries ++ list) := by
  cases line with
  | blank spaces => exact (reads_spaces spaces.isSpace).mpr reads
  | comment note => exact reads_comment note.oneLine_bytes ends reads
  | entry exported key value note => exact reads_entry exported key value note ends noQuote reads

theorem noQuote_line (line : Line) (noQuote : NoQuoteNext rest) :
    NoQuoteNext (line.text ++ rest) := by
  cases line with
  | blank spaces => exact (noQuoteNext_spaces spaces.isSpace).mpr noQuote
  | comment note => exact noQuoteNext_of_head rfl rfl rfl
  | entry exported key value note =>
      cases exported with
      | true => exact noQuoteNext_of_head rfl rfl rfl
      | false =>
          cases isBytes : key.bytes with
          | nil => exact absurd isBytes key.nonempty
          | cons c more =>
              have isKey := key.isKey c (by rw [isBytes]; exact List.mem_cons_self ..)
              obtain ⟨notSpace, notQuote⟩ := isWhitespace_of_isKeyByte isKey
              refine noQuoteNext_of_head (c := c) ?_ notSpace notQuote
              simp [Line.text, exportText, isBytes]

/-- A file is read as its entries. -/
theorem reads_file (lines : List (Line × LineEnd)) (last : Line) (front : Text) :
    Reads front (textOf lines last) (readOf (lines.flatMap (·.1.entries) ++ last.entries)) ∧
      NoQuoteNext (textOf lines last) := by
  induction lines generalizing front with
  | nil =>
      have noQuote : NoQuoteNext [] := by
        intro c isHead
        cases isHead
      have reads := reads_line front [] last (fun c isHead => by cases isHead)
        noQuote (reads_nil _)
      have quiet := noQuote_line last noQuote
      rw [List.append_nil] at reads quiet
      rw [List.append_nil] at reads
      exact ⟨reads, quiet⟩
  | cons e rest ih =>
      obtain ⟨line, lineEnd⟩ := e
      have allSpace : ∀ c ∈ lineEnd.text, isWhitespace c = true :=
        fun c member => isWhitespace_of_isLineBreak (lineEnd.isBreak c member)
      obtain ⟨reads, quiet⟩ := ih (front ++ line.text ++ lineEnd.text)
      have quietEnd := (noQuoteNext_spaces allSpace).mpr quiet
      have isRead := reads_line front _ line (lineEnd.ends _) quietEnd ((reads_spaces allSpace).mpr reads)
      refine ⟨?_, noQuote_line line quietEnd⟩
      unfold readOf at isRead ⊢
      rw [List.flatMap_cons, List.append_assoc, List.map_append]
      exact isRead

theorem entries_file (file : EnvFile) :
    entries false file.text = some (readOf file.entries) := by
  obtain ⟨reads, -⟩ := reads_file file.lines file.last []
  exact @ReadsFrom.enough file.text 0 _ _ reads (Nat.zero_le _) (Nat.le_add_left _ _)

end Bunx.Dotenv
