/-
Module: Bunx.Dotenv.ExpandTotal
Purpose: The expansion of a value stays within it exactly where no default has a reference inside,
  and so does the load of a file.
Trusted boundary: none
Main exports: HidesReference, expandLoop_none_iff, expandValue_none_iff, parse_bytes_in_range,
  nested_default_panics
-/
import Bunx.Dotenv.ParseTotal

namespace Bunx.Dotenv

open Lib

/-! ### Defaults with references -/

def IsEscaped (value : Text) (pos : Nat) : Prop := pos > 0 ∧ value[pos - 1]? = some backslash

instance (value : Text) (pos : Nat) : Decidable (IsEscaped value pos) :=
  inferInstanceAs (Decidable (_ ∧ _))

/-- The default of the reference at a position has another `$` in it. The last byte of a value is
never taken for one. -/
def HidesAt (value : Text) (pos : Nat) : Prop :=
  value[pos]? = some dollar ∧ ¬ IsEscaped value pos ∧
    ∃ inner, nameEnd value pos ≤ inner ∧ inner < defaultEnd value pos ∧
      inner + 2 ≤ value.length ∧ value[inner]? = some dollar

def HidesReference (value : Text) : Prop := ∃ pos, pos + 2 ≤ value.length ∧ HidesAt value pos

variable {lookup : Text → Option Text} {value : Text} {pos last : Nat} {buffer : Text}

/-- What has been handled of a value when the byte at `pos` is next. -/
structure Handled (value : Text) (pos last : Nat) : Prop where
  inside : pos + 2 ≤ value.length
  before : pos < last
  within : last ≤ value.length
  isStart : last = value.length ∨
    last + 2 ≤ value.length ∧ (value[last]? = some dollar ∨ value[last]? = some backslash)
  passed : ∀ q, pos < q → q + 2 ≤ value.length → value[q]? = some dollar → last ≤ q

theorem nameStart_bounds (inside : pos + 2 ≤ value.length) :
    pos < nameStart value pos ∧ nameStart value pos ≤ value.length := by
  unfold nameStart
  split
  · exact ⟨by omega, by omega⟩
  · exact ⟨by omega, by omega⟩

theorem nameEnd_bounds (inside : pos + 2 ≤ value.length) :
    nameStart value pos ≤ nameEnd value pos ∧ nameEnd value pos ≤ value.length :=
  ⟨scanWhile_ge, scanWhile_le (nameStart_bounds inside).2⟩

theorem hasDefault_bytes (has : hasDefault value pos = true) :
    value[nameEnd value pos]? = some colon ∧ value[nameEnd value pos + 1]? = some 0x2D := by
  obtain ⟨rest, isWhole⟩ := List.isPrefixOf_iff_prefix.mp has
  constructor
  · have isHead : (value.drop (nameEnd value pos))[0]? = some colon := by
      rw [← isWhole]
      rfl
    rwa [List.getElem?_drop] at isHead
  · rw [← List.getElem?_drop, ← isWhole]
    rfl

theorem defaultEnd_bounds (inside : pos + 2 ≤ value.length) :
    nameEnd value pos ≤ defaultEnd value pos ∧ defaultEnd value pos ≤ value.length ∧
      (hasDefault value pos = true → nameEnd value pos + 2 ≤ defaultEnd value pos) := by
  obtain ⟨-, nameWithin⟩ := nameEnd_bounds inside
  unfold defaultEnd
  split
  · next has =>
    obtain ⟨nextInside, -⟩ := List.getElem?_eq_some_iff.mp (hasDefault_bytes has).2
    have behind : nameEnd value pos + 2 ≤ scanWhile isDefaultByte value (nameEnd value pos + 2) :=
      scanWhile_ge
    exact ⟨by omega, scanWhile_le nextInside, fun _ => behind⟩
  · next hasNot => exact ⟨Nat.le_refl _, nameWithin, fun has => absurd has hasNot⟩

/-- Between a `$` and the end of its name there is neither another one nor a backslash. -/
theorem name_plain {q : Nat} (behind : pos < q) (before : q < nameEnd value pos) :
    value[q]? ≠ some dollar ∧ value[q]? ≠ some backslash := by
  have inName (inside : nameStart value pos ≤ q) :
      value[q]? ≠ some dollar ∧ value[q]? ≠ some backslash := by
    constructor
    · intro isByte
      have isWord := scanWhile_passed inside before isByte
      cases isWord
    · intro isByte
      have isWord := scanWhile_passed inside before isByte
      cases isWord
  by_cases isBrace : value[pos + 1]? = some openBrace
  · rcases Nat.eq_or_lt_of_le behind with isNext | further
    · rw [← isNext, isBrace]
      exact ⟨by decide, by decide⟩
    · exact inName (by rwa [nameStart, if_pos isBrace])
  · exact inName (by rwa [nameStart, if_neg isBrace])

/-- Nor is there a backslash in a default. -/
theorem default_plain {q : Nat} (behind : nameEnd value pos ≤ q)
    (before : q < defaultEnd value pos) : value[q]? ≠ some backslash := by
  unfold defaultEnd at before
  split at before
  · next has =>
    obtain ⟨isColon, isMinus⟩ := hasDefault_bytes has
    intro isByte
    rcases Nat.lt_or_ge q (nameEnd value pos + 2) with inMark | inDefault
    · rcases Nat.eq_or_lt_of_le behind with rfl | further
      · rw [isColon] at isByte
        cases isByte
      · have isNext : q = nameEnd value pos + 1 := by omega
        rw [isNext, isMinus] at isByte
        cases isByte
    · have isDefault := scanWhile_passed inDefault before isByte
      cases isDefault
  · omega

/-! ### A reference -/

def referenceEnd (value : Text) (pos : Nat) : Nat :=
  if value[defaultEnd value pos]? = some closeBrace then defaultEnd value pos + 1
  else defaultEnd value pos

theorem reference_total (lookup : Text → Option Text) (inside : pos + 2 ≤ value.length) :
    ∃ text, reference lookup value pos = some (text, referenceEnd value pos) := by
  obtain ⟨next, isNext⟩ := byte_exists (show pos + 1 < value.length from inside)
  obtain ⟨nameFurther, nameWithin⟩ := nameEnd_bounds inside
  obtain ⟨-, defaultWithin, behindMark⟩ := defaultEnd_bounds inside
  unfold reference
  rw [isNext, slice_isSome nameFurther nameWithin]
  cases has : hasDefault value pos with
  | true =>
      rw [slice_isSome (behindMark has) defaultWithin]
      exact ⟨_, rfl⟩
  | false => exact ⟨_, rfl⟩

/-- What has been handled does not reach into a reference that hides no other one. -/
theorem referenceEnd_le_iff (handled : Handled value pos last) (isDollar : value[pos]? = some dollar)
    (notEscaped : ¬ IsEscaped value pos) :
    referenceEnd value pos ≤ last ↔ ¬ HidesAt value pos := by
  obtain ⟨defaultFurther, defaultWithin, -⟩ := defaultEnd_bounds handled.inside
  have endBounds : defaultEnd value pos ≤ referenceEnd value pos := by
    unfold referenceEnd
    split
    · exact Nat.le_succ _
    · exact Nat.le_refl _
  constructor
  · rintro reaches ⟨-, -, inner, behindName, inDefault, inside, isInner⟩
    have nameBounds := nameEnd_bounds handled.inside
    have startBounds := nameStart_bounds handled.inside
    have startsBefore := handled.passed inner (by omega) inside isInner
    omega
  · intro hidesNot
    by_contra reachesNot
    have lastBefore : last < referenceEnd value pos := Nat.lt_of_not_le reachesNot
    have inDefault : last ≠ value.length → last < defaultEnd value pos ∨
        value[last]? = some closeBrace := by
      intro _
      unfold referenceEnd at lastBefore
      split at lastBefore
      · next isBrace =>
        rcases Nat.eq_or_lt_of_le (Nat.le_of_lt_succ lastBefore) with rfl | further
        · exact .inr isBrace
        · exact .inl further
      · exact .inl lastBefore
    rcases handled.isStart with atEnd | ⟨inside, isByte⟩
    · unfold referenceEnd at lastBefore
      split at lastBefore
      · next isBrace =>
        obtain ⟨braceInside, -⟩ := List.getElem?_eq_some_iff.mp isBrace
        omega
      · omega
    · rcases inDefault (by omega) with beforeEnd | isBrace
      · rcases Nat.lt_or_ge last (nameEnd value pos) with inName | behindName
        · obtain ⟨notDollar, notBackslash⟩ := name_plain handled.before inName
          exact isByte.elim notDollar notBackslash
        · rcases isByte with isInner | isBackslash
          · exact hidesNot ⟨isDollar, notEscaped, last, behindName, beforeEnd, inside, isInner⟩
          · exact default_plain behindName beforeEnd isBackslash
      · rw [isBrace] at isByte
        rcases isByte with same | same
        · cases same
        · cases same

/-! ### The loop -/

theorem expandDollar_escaped (escaped : IsEscaped value pos) :
    expandDollar lookup value pos last buffer =
      (slice value pos last).bind fun part => some (pos - 1, pos - 1, part ++ buffer) :=
  if_pos escaped

theorem expandDollar_reference (notEscaped : ¬ IsEscaped value pos) :
    expandDollar lookup value pos last buffer =
      (reference lookup value pos).bind fun found =>
        (slice value found.2 last).bind fun part =>
          some (pos, pos, found.1 ++ (part ++ buffer)) :=
  if_neg notEscaped

/-- A turn leaves the value exactly at a reference that hides another one. -/
theorem expandDollar_none_iff (handled : Handled value pos last)
    (isDollar : value[pos]? = some dollar) :
    expandDollar lookup value pos last buffer = none ↔ HidesAt value pos := by
  by_cases escaped : IsEscaped value pos
  · have hidesNot : ¬ HidesAt value pos := fun hides => hides.2.1 escaped
    rw [expandDollar_escaped escaped,
      slice_isSome (Nat.le_of_lt handled.before) handled.within]
    simp [hidesNot]
  · obtain ⟨text, isText⟩ := reference_total lookup handled.inside
    rw [expandDollar_reference escaped, isText]
    by_cases reaches : referenceEnd value pos ≤ last
    · have hidesNot := (referenceEnd_le_iff handled isDollar escaped).mp reaches
      simp [slice_isSome reaches handled.within, hidesNot]
    · have hides : HidesAt value pos := by
        by_contra hidesNot
        exact reaches ((referenceEnd_le_iff handled isDollar escaped).mpr hidesNot)
      have outside : slice value (referenceEnd value pos) last = none :=
        if_neg fun both => reaches both.1
      simp [outside, hides]

/-- The positions behind a turn at a `$`. -/
theorem expandDollar_positions {pos' last' : Nat} {buffer' : Text}
    (isResult : expandDollar lookup value pos last buffer = some (pos', last', buffer')) :
    last' = pos' ∧ (IsEscaped value pos ∧ pos' + 1 = pos ∨ ¬ IsEscaped value pos ∧ pos' = pos) := by
  by_cases escaped : IsEscaped value pos
  · rw [expandDollar_escaped escaped] at isResult
    obtain ⟨part, -, isPair⟩ := Option.bind_eq_some_iff.mp isResult
    obtain ⟨rfl, rest⟩ := Prod.mk.inj (Option.some.inj isPair)
    obtain ⟨rfl, -⟩ := Prod.mk.inj rest
    exact ⟨rfl, .inl ⟨escaped, Nat.sub_add_cancel escaped.1⟩⟩
  · rw [expandDollar_reference escaped] at isResult
    obtain ⟨⟨text, stop⟩, -, isRest⟩ := Option.bind_eq_some_iff.mp isResult
    obtain ⟨part, -, isPair⟩ := Option.bind_eq_some_iff.mp isRest
    obtain ⟨rfl, rest⟩ := Prod.mk.inj (Option.some.inj isPair)
    obtain ⟨rfl, -⟩ := Prod.mk.inj rest
    exact ⟨rfl, .inr ⟨escaped, rfl⟩⟩

/-- What a turn does at any byte. -/
def expandTurn (lookup : Text → Option Text) (value : Text) (pos last : Nat) (buffer : Text) :
    Option (Nat × Nat × Text) :=
  if value[pos]? = some dollar then expandDollar lookup value pos last buffer
  else some (pos, last, buffer)

/-- The positions from `pos'` to `pos` are done, and none of them hides a reference. -/
structure Done (value : Text) (pos pos' last' : Nat) : Prop where
  back : pos' ≤ pos
  within : last' ≤ value.length
  hidesNot : ∀ p, pos' ≤ p → p ≤ pos → ¬ HidesAt value p
  next : 0 < pos' → Handled value (pos' - 1) last'

theorem expandTurn_done (lookup : Text → Option Text) (buffer : Text) (handled : Handled value pos last) :
    expandTurn lookup value pos last buffer = none ∧ HidesAt value pos ∨
      ∃ pos' last' buffer', expandTurn lookup value pos last buffer = some (pos', last', buffer') ∧
        Done value pos pos' last' := by
  have inside := handled.inside
  by_cases isDollar : value[pos]? = some dollar
  · unfold expandTurn
    rw [if_pos isDollar]
    cases isResult : expandDollar lookup value pos last buffer with
    | none => exact .inl ⟨rfl, (expandDollar_none_iff handled isDollar).mp isResult⟩
    | some result =>
        obtain ⟨pos', last', buffer'⟩ := result
        have hidesNot : ¬ HidesAt value pos := fun hides => by
          rw [(expandDollar_none_iff handled isDollar).mpr hides] at isResult
          cases isResult
        obtain ⟨rfl, positions⟩ := expandDollar_positions isResult
        refine .inr ⟨last', last', buffer', rfl, ?_⟩
        rcases positions with ⟨escaped, rfl⟩ | ⟨-, rfl⟩
        · have isBackslash : value[last']? = some backslash := escaped.2
          have notDollar : value[last']? ≠ some dollar := by
            rw [isBackslash]
            decide
          constructor
          · exact Nat.le_succ _
          · omega
          · intro p behind upTo hides
            rcases Nat.eq_or_lt_of_le behind with rfl | further
            · exact notDollar hides.1
            · exact hidesNot (Nat.le_antisymm upTo further ▸ hides)
          · intro positive
            refine ⟨by omega, by omega, by omega, .inr ⟨by omega, .inr isBackslash⟩, ?_⟩
            intro q behind _ _
            omega
        · constructor
          · exact Nat.le_refl _
          · omega
          · intro p behind upTo hides
            exact hidesNot (Nat.le_antisymm upTo behind ▸ hides)
          · intro positive
            refine ⟨by omega, by omega, by omega, .inr ⟨inside, .inl isDollar⟩, ?_⟩
            intro q behind _ _
            omega
  · refine .inr ⟨pos, last, buffer, if_neg isDollar, ?_⟩
    constructor
    · exact Nat.le_refl _
    · exact handled.within
    · intro p behind upTo hides
      exact isDollar (Nat.le_antisymm upTo behind ▸ hides.1)
    · intro positive
      have before := handled.before
      refine ⟨by omega, by omega, handled.within, handled.isStart, ?_⟩
      intro q behind qInside isByte
      rcases Nat.eq_or_lt_of_le (show pos ≤ q by omega) with rfl | further
      · exact absurd isByte isDollar
      · exact handled.passed q further qInside isByte

theorem expandLoop_succ {fuel : Nat} :
    expandLoop lookup value (fuel + 1) pos last buffer =
      (expandTurn lookup value pos last buffer).bind fun (pos, last, buffer) =>
        if pos = 0 then
          if last = value.length then some none else some (some (last, buffer))
        else expandLoop lookup value fuel (pos - 1) last buffer := by
  unfold expandTurn
  rw [expandLoop]
  split
  · cases expandDollar lookup value pos last buffer with
    | none => rfl
    | some result =>
        obtain ⟨pos, last, buffer⟩ := result
        rfl
  · rfl

/-- A run of the loop leaves the value exactly where a reference hides another one. -/
theorem expandLoop_none_iff {fuel : Nat} (handled : Handled value pos last) (enough : pos < fuel) :
    expandLoop lookup value fuel pos last buffer = none ↔ ∃ p ≤ pos, HidesAt value p := by
  induction fuel generalizing pos last buffer with
  | zero => omega
  | succ fuel ih =>
      rw [expandLoop_succ]
      rcases expandTurn_done lookup buffer handled with
        ⟨isNone, hides⟩ | ⟨pos', last', buffer', isTurn, done⟩
      · rw [isNone]
        exact ⟨fun _ => ⟨pos, Nat.le_refl _, hides⟩, fun _ => rfl⟩
      · have back := done.back
        have further : (∃ p ≤ pos, HidesAt value p) ↔ ∃ p < pos', HidesAt value p := by
          constructor
          · rintro ⟨p, upTo, hides⟩
            exact ⟨p, Nat.lt_of_not_le fun behind => done.hidesNot p behind upTo hides, hides⟩
          · rintro ⟨p, before, hides⟩
            exact ⟨p, by omega, hides⟩
        rw [isTurn, further]
        show (if pos' = 0 then _ else _) = none ↔ _
        rcases Nat.eq_zero_or_pos pos' with isStart | positive
        · rw [if_pos isStart]
          constructor
          · intro isNone
            split at isNone
            · cases isNone
            · cases isNone
          · rintro ⟨p, before, -⟩
            omega
        · rw [if_neg (Nat.ne_of_gt positive),
            ih (done.next positive) (by omega)]
          constructor
          · rintro ⟨p, upTo, hides⟩
            exact ⟨p, by omega, hides⟩
          · rintro ⟨p, before, hides⟩
            exact ⟨p, by omega, hides⟩

theorem expandLoop_within {fuel : Nat} {last' : Nat} {buffer' : Text}
    (handled : Handled value pos last)
    (isResult : expandLoop lookup value fuel pos last buffer = some (some (last', buffer'))) :
    last' ≤ value.length := by
  induction fuel generalizing pos last buffer with
  | zero => cases isResult
  | succ fuel ih =>
      rw [expandLoop_succ] at isResult
      rcases expandTurn_done lookup buffer handled with
        ⟨isNone, -⟩ | ⟨pos'', last'', buffer'', isTurn, done⟩
      · rw [isNone] at isResult
        cases isResult
      · rw [isTurn] at isResult
        have isResult : (if pos'' = 0 then
            if last'' = value.length then some none else some (some (last'', buffer''))
          else expandLoop lookup value fuel (pos'' - 1) last'' buffer'') =
            some (some (last', buffer')) := isResult
        split at isResult
        · split at isResult
          · cases isResult
          · obtain ⟨rfl, -⟩ := Prod.mk.inj (Option.some.inj (Option.some.inj isResult))
            exact done.within
        · next notStart =>
          exact ih (done.next (Nat.pos_of_ne_zero notStart)) isResult

theorem expandValue_none_iff : expandValue lookup value = none ↔ HidesReference value := by
  unfold expandValue
  split
  · next short =>
    constructor
    · intro isNone
      cases isNone
    · rintro ⟨pos, inside, -⟩
      omega
  · next long =>
    have handled : Handled value (value.length - 2) value.length :=
      ⟨by omega, by omega, Nat.le_refl _, .inl rfl, fun q _ _ _ => by omega⟩
    have hidden : HidesReference value ↔ ∃ p ≤ value.length - 2, HidesAt value p := by
      constructor
      · rintro ⟨p, inside, hides⟩
        exact ⟨p, by omega, hides⟩
      · rintro ⟨p, upTo, hides⟩
        exact ⟨p, by omega, hides⟩
    rw [hidden, ← @expandLoop_none_iff lookup _ _ _ [] value.length handled (by omega)]
    cases isResult : expandLoop lookup value value.length (value.length - 2) value.length [] with
    | none => simp
    | some result =>
        cases result with
        | none => simp
        | some rest =>
            obtain ⟨last, buffer⟩ := rest
            have within := expandLoop_within handled isResult
            by_cases positive : last > 0
            · simp [positive, slice_isSome (Nat.zero_le last) within]
            · simp [positive]

/-! ### The file -/

theorem expandEntries_isSome_iff {total idx : Nat} {map : Map} (inside : idx + total = map.length) :
    (∃ result, expandEntries total idx map = some result) ↔
      ∀ e ∈ map.drop idx, ¬ HidesReference e.2.value := by
  induction total generalizing idx map with
  | zero =>
      have isEmpty : map.drop idx = [] := List.drop_eq_nil_of_le (by omega)
      rw [isEmpty]
      constructor
      · intro _ e member
        cases member
      · intro _
        exact ⟨map, rfl⟩
  | succ total ih =>
      have idxInside : idx < map.length := by omega
      have isCurrent : map.values[idx]? = some map[idx].2 := by
        unfold OrderedMap.values
        rw [List.getElem?_map, List.getElem?_eq_getElem idxInside]
        rfl
      rw [List.drop_eq_getElem_cons idxInside]
      simp only [List.forall_mem_cons]
      cases isExpanded : expandValue map.lookup map[idx].2.value with
      | none =>
          have hides := expandValue_none_iff.mp isExpanded
          simp [expandEntries, isCurrent, isExpanded, hides]
      | some expanded =>
          have hidesNot : ¬ HidesReference map[idx].2.value := fun hides => by
            rw [expandValue_none_iff.mpr hides] at isExpanded
            cases isExpanded
          cases expanded with
          | none =>
              have next := @ih (idx + 1) map (by omega)
              simpa [expandEntries, isCurrent, isExpanded, hidesNot] using next
          | some text =>
              have sameLength : (map.modifyAt idx fun _ =>
                  { value := text, conditional := false }).length = map.length :=
                OrderedMap.length_modifyAt
              have sameDrop : (map.modifyAt idx fun _ =>
                  { value := text, conditional := false }).drop (idx + 1) = map.drop (idx + 1) :=
                OrderedMap.drop_modifyAt
              have next := @ih (idx + 1)
                (map.modifyAt idx fun _ => { value := text, conditional := false })
                (by omega)
              rw [sameDrop] at next
              simpa [expandEntries, isCurrent, isExpanded, hidesNot] using next

/-- A load never leaves the file or one of its values exactly where the last value of no new key
has a default with a reference inside, or nothing is expanded. -/
theorem parse_bytes_in_range (override isProcess expand : Bool) (src : Text) (map : Map) :
    ∃ list, entries isProcess src = some list ∧
      ((∃ result, parseBytes override isProcess expand src map = some result) ↔
        (isProcess = false → expand = true → ∀ key value, key ∉ map.keys →
          lastValue list key = some value → ¬ HidesReference value)) := by
  obtain ⟨list, isList⟩ := entries_total isProcess src
  obtain ⟨old, isParsed, sameKeys, -⟩ :=
    parseLoop_added override map isList
  have sameLength : old.length = map.length := by
    simpa only [OrderedMap.keys, List.length_map] using congrArg List.length sameKeys
  refine ⟨list, isList, ?_⟩
  unfold parseBytes
  rw [isParsed]
  by_cases expands : isProcess = false ∧ expand = true
  · obtain ⟨rfl, rfl⟩ := expands
    show (∃ result, expandEntries _ map.length (old ++ added map.keys list []) = some result) ↔ _
    rw [expandEntries_isSome_iff (by rw [List.length_append]; omega), ← sameLength,
      List.drop_left]
    constructor
    · intro plain _ _ key value fresh isLast
      exact plain (key, entered value) (mem_added_iff.mpr ⟨fresh, value, isLast, rfl⟩)
    · rintro plain ⟨key, value⟩ member
      obtain ⟨fresh, text, isLast, rfl⟩ := mem_added_iff.mp member
      exact plain rfl rfl key text fresh isLast
  · have noExpansion : (!isProcess && expand) = false := by
      cases isProcess with
      | true => rfl
      | false =>
          cases expand with
          | true => exact absurd ⟨rfl, rfl⟩ expands
          | false => rfl
    constructor
    · intro _ isFile isOn
      exact absurd ⟨isFile, isOn⟩ expands
    · intro _
      exact ⟨old ++ added map.keys list [], by simp [noExpansion]⟩

/-- `A=${a:-$b}` in an empty environment. -/
theorem nested_default_panics :
    ¬ ∃ result, parseBytes false false true
      [0x41, equals, dollar, openBrace, 0x61, colon, 0x2D, dollar, 0x62, closeBrace] [] =
        some result := by
  have panics : parseBytes false false true
      [0x41, equals, dollar, openBrace, 0x61, colon, 0x2D, dollar, 0x62, closeBrace] [] = none := by
    decide +kernel
  rw [panics]
  rintro ⟨result, isSome⟩
  cases isSome

end Bunx.Dotenv
