/-
Module: Bunx.Dotenv.ParseFile
Purpose: What a load of a file of blank lines, comments and entries leaves in the map.
Trusted boundary: none
Main exports: MeansWhatItSays, EndsInSpaceByte, parse_bytes_file, cut_character
-/
import Bunx.Dotenv.ReadFile

namespace Bunx.Dotenv

open Lib Utf8

/-! ### Values without references -/

section Expand

variable {lookup : Text → Option Text} {value : Text}

theorem expandLoop_plain {fuel pos : Nat} (noDollar : dollar ∉ value) (enough : pos < fuel) :
    expandLoop lookup value fuel pos value.length [] = some none := by
  induction fuel generalizing pos with
  | zero => omega
  | succ fuel ih =>
      have notDollar : value[pos]? ≠ some dollar := fun isDollar =>
        noDollar (List.mem_of_getElem? isDollar)
      rw [expandLoop, if_neg notDollar]
      show (if pos = 0 then _ else _) = _
      split
      · exact if_pos rfl
      · exact ih (by omega)

theorem expandValue_plain (noDollar : dollar ∉ value) : expandValue lookup value = some none := by
  unfold expandValue
  split
  · rfl
  · rw [expandLoop_plain noDollar (by omega)]
    rfl

theorem expandEntries_plain {total idx : Nat} {map : Map} (inside : idx + total = map.length)
    (noDollar : ∀ e ∈ map.drop idx, dollar ∉ e.2.value) : expandEntries total idx map = some map := by
  induction total generalizing idx with
  | zero => rfl
  | succ total ih =>
      have idxInside : idx < map.length := by omega
      rw [List.drop_eq_getElem_cons idxInside, List.forall_mem_cons] at noDollar
      have isCurrent : map.values[idx]? = some map[idx].2 := by
        unfold OrderedMap.values
        rw [List.getElem?_map, List.getElem?_eq_getElem idxInside]
        rfl
      rw [expandEntries, isCurrent]
      show (expandValue map.lookup map[idx].2.value).bind _ = _
      rw [expandValue_plain noDollar.1]
      exact ih (by omega) noDollar.2

end Expand

/-! ### Values -/

/-- The encoding of a value without quotes ends in a byte that is taken for white space. -/
def Value.EndsInSpaceByte : Value → Prop
  | .unquoted text => (encode text.chars).getLast? = some 0xA0
  | .quoted _ _ => False

/-- Only a byte of a longer character is taken for white space at the end. -/
theorem encode_last {chars : List Char} {b : UInt8}
    (noSpace : ∀ c, chars.getLast? = some c → isSpaceChar c = false)
    (isLast : (encode chars).getLast? = some b) : isWhitespace b = true ↔ b = 0xA0 := by
  constructor
  · intro isSpace
    rcases List.eq_nil_or_concat' chars with rfl | ⟨front, c, rfl⟩
    · cases isLast
    · have notSpace := noSpace c List.getLast?_concat
      rw [encode_append, encode_singleton] at isLast
      rcases Nat.lt_or_ge 0x7F c.toNat with notAscii | ascii
      · obtain ⟨first, rest, bytes, firstLarge, restLarge⟩ := encodeChar_large notAscii
        rw [bytes] at isLast
        have member : b ∈ first :: rest := by
          rw [List.getLast?_append_of_ne_nil _ (List.cons_ne_nil first rest)] at isLast
          exact List.mem_of_getLast? isLast
        have large : 0x80 ≤ b.toNat := by
          rcases List.mem_cons.mp member with rfl | inRest
          · exact Nat.le_trans (by decide) firstLarge
          · exact restLarge b inRest
        exact spaceByte_of_large isSpace large
      · rw [encodeChar_one ascii, List.getLast?_concat] at isLast
        obtain rfl : UInt8.ofNat c.toNat = b := Option.some.inj isLast
        rw [isSpaceChar_of_byte ascii isSpace] at notSpace
        cases notSpace
  · rintro rfl
    rfl

/-- A value is read as it is meant exactly where none of its bytes is taken for white space. -/
theorem read_eq_meaning_iff (value : Value) :
    value.read = value.meaning ↔ ¬ value.EndsInSpaceByte := by
  cases value with
  | quoted quote text => exact ⟨fun _ => id, fun _ => rfl⟩
  | unquoted text =>
      show (encode text.chars).rdropWhile isWhitespace = encode text.chars ↔
        ¬ (encode text.chars).getLast? = some 0xA0
      rw [List.rdropWhile_eq_self_iff]
      constructor
      · intro plain isLast
        have nonempty : encode text.chars ≠ [] := by
          intro isEmpty
          rw [isEmpty] at isLast
          cases isLast
        rw [List.getLast?_eq_some_getLast nonempty] at isLast
        exact plain nonempty (by rw [Option.some.inj isLast]; rfl)
      · intro notLast nonempty isSpace
        have isLast := List.getLast?_eq_some_getLast nonempty
        rw [(encode_last text.noSpaceBehind isLast).mp isSpace] at isLast
        exact notLast isLast

theorem read_noDollar (value : Value) : dollar ∉ value.read := by
  cases value with
  | quoted quote text =>
      intro member
      exact encode_avoids quote.ascii text.plain _ member (by simp)
  | unquoted text =>
      intro member
      have inText : dollar ∈ encode text.chars :=
        (List.rdropWhile_prefix isWhitespace (encode text.chars)).subset member
      exact encode_avoids rfl text.plain _ inText (by simp)

/-! ### The file -/

/-- The file means what it says: the map is as before, and has the last VALUE of every other key. -/
structure MeansWhatItSays (file : EnvFile) (map result : Map) : Prop where
  kept : ∀ key ∈ map.keys, result.get key = map.get key
  added : ∀ key, key ∉ map.keys →
    result.lookup key = (lastValue file.entries key).map Value.meaning

theorem parseBytes_file (file : EnvFile) (map : Map) :
    parseBytes false false true file.text map =
      some (map ++ added map.keys (readOf file.entries) []) := by
  obtain ⟨old, isParsed, -, same⟩ :=
    parseLoop_added false map (entries_file file)
  rw [same rfl] at isParsed
  have plain : ∀ e ∈ (map ++ added map.keys (readOf file.entries) []).drop map.length,
      dollar ∉ e.2.value := by
    rintro ⟨key, value⟩ member
    rw [List.drop_left] at member
    obtain ⟨-, text, isLast, rfl⟩ := mem_added_iff.mp member
    obtain ⟨e, -, isEntry⟩ := List.mem_map.mp (lastValue_mem isLast)
    obtain ⟨-, rfl⟩ := Prod.mk.inj isEntry
    exact read_noDollar e.2
  unfold parseBytes
  rw [isParsed]
  show expandEntries _ _ _ = _
  exact expandEntries_plain (by rw [List.length_append]; omega) plain

/-- A load leaves what the file says exactly where no last VALUE of a new key ends in a byte that is
taken for white space. -/
theorem parse_bytes_file (file : EnvFile) (map : Map) :
    (∃ result, parseBytes false false true file.text map = some result ∧
        MeansWhatItSays file map result) ↔
      ∀ key value, key ∉ map.keys → lastValue file.entries key = some value →
        ¬ value.EndsInSpaceByte := by
  have isLookup (key : Text) (fresh : key ∉ map.keys) :
      Map.lookup (map ++ added map.keys (readOf file.entries) []) key =
        (lastValue file.entries key).map Value.read := by
    have isRead := lastValue_map Value.read file.entries key
    unfold Map.lookup
    rw [OrderedMap.get_append, OrderedMap.get_eq_none_iff.mpr fresh, get_added, if_neg fresh]
    unfold readOf
    rw [isRead]
    cases lastValue file.entries key with
    | none => rfl
    | some value => rfl
  rw [parseBytes_file]
  constructor
  · rintro ⟨result, isResult, means⟩ key value fresh isLast
    obtain rfl := Option.some.inj isResult
    have same := means.added key fresh
    rw [isLookup key fresh, isLast] at same
    exact (read_eq_meaning_iff value).mp (Option.some.inj same)
  · intro plain
    refine ⟨_, rfl, ?_, ?_⟩
    · intro key known
      obtain ⟨value, isValue⟩ := OrderedMap.mem_keys_iff.mp known
      rw [OrderedMap.get_append, isValue]
      rfl
    · intro key fresh
      rw [isLookup key fresh]
      cases isLast : lastValue file.entries key with
      | none => rfl
      | some value =>
          exact congrArg some ((read_eq_meaning_iff value).mpr (plain key value fresh isLast))

/-- The key of the file below. -/
def cutKey : Key where
  bytes := [0x41]
  nonempty := List.cons_ne_nil _ _
  isKey := by
    intro c member
    rw [List.mem_singleton.mp member]
    rfl

/-- A letter whose second byte is A0. -/
def cutText : Unquoted where
  chars := [Char.ofNat 0xE0]
  plain := by
    intro c member
    have isChar : c.toNat = 0xE0 := by
      rw [List.mem_singleton.mp member]
      rfl
    rw [isChar]
    simp [doubleQuote, singleQuote, backtick, hash, newline, carriageReturn, dollar]
  noSpaceInFront := by
    rintro c ⟨⟩
    rfl
  noSpaceBehind := by
    rintro c ⟨⟩
    rfl

def cutFile : EnvFile := { lines := [], last := .entry false cutKey (.unquoted cutText) none }

theorem cut_character :
    ¬ ∃ result, parseBytes false false true cutFile.text [] = some result ∧
        MeansWhatItSays cutFile [] result := by
  have isResult : parseBytes false false true cutFile.text [] =
      some [([0x41], { value := [0xC3], conditional := false })] := by
    decide +kernel
  have isMeant : (lastValue cutFile.entries [0x41]).map Value.meaning = some [0xC3, 0xA0] := by
    decide +kernel
  rintro ⟨result, isSome, means⟩
  rw [isResult] at isSome
  obtain rfl := Option.some.inj isSome
  have same := means.added [0x41] (by decide)
  rw [isMeant] at same
  exact absurd same (by decide)

end Bunx.Dotenv
