/-
Module: Bunx.Cron.FormatNumeric
Purpose: Cron expressions written as numbers, and what a parser reads from them.
Trusted boundary: none
Main exports: formatBitfield, formatNumeric, FieldBits, parse_fields, parse_formatNumeric
-/
import Bunx.Cron.CronParser
import Bunx.Lib.Decimal

namespace Bunx.Cron

open Lib

/-! ### Writing -/

def countOnes {w : Nat} (bits : BitVec w) : Nat := (List.range w).countP bits.getLsbD

/-- The values of a field that are set, with commas between them. -/
def formatBits {w : Nat} (bits : BitVec w) : List Nat → Bool → Bytes
  | [], _ => []
  | i :: rest, first =>
      if bitSet bits i then (if first then [] else [44]) ++ decimal i ++ formatBits bits rest false
      else formatBits bits rest first

def formatBitfield {w : Nat} (bits : BitVec w) (min max : Nat) : Bytes :=
  if countOnes bits = max - min + 1 then ascii "*"
  else formatBits bits (List.range' min (max - min + 1)) true

def bufferLength : Nat := 512

/-- What `format_numeric` writes into its buffer; none where it does not fit. -/
def CronExpression.formatNumeric (e : CronExpression) : Option Bytes :=
  let text := formatBitfield e.minutes 0 59 ++ [32] ++ formatBitfield e.hours 0 23 ++ [32] ++
    formatBitfield e.days 1 31 ++ [32] ++ formatBitfield e.months 1 12 ++ [32] ++
    formatBitfield e.weekdays 0 6
  if text.length ≤ bufferLength then some text else none

/-! ### Bits -/

theorem bitSet_eq {w : Nat} (positive : 0 < w) (set : BitVec w) (pos : Nat) :
    bitSet set pos = set.getLsbD pos := by
  have isOne (i : Nat) (inside : i < w) :
      ((set >>> pos) &&& 1#w).getLsbD i = (decide (i = 0) && set.getLsbD pos) := by
    by_cases isZero : i = 0
    · subst isZero
      simp [positive]
    · simp [isZero]
  unfold bitSet
  cases isBit : set.getLsbD pos with
  | true =>
      rw [bne_iff_ne]
      intro isNone
      have bit := isOne 0 positive
      rw [isNone, isBit] at bit
      simp at bit
  | false =>
      have isNone : (set >>> pos) &&& 1#w = 0#w := by
        apply BitVec.eq_of_getLsbD_eq
        intro i inside
        rw [isOne i inside, isBit]
        simp
      rw [isNone]
      exact bne_self_eq_false _

/-- The bits of a field are in its range, and there is one. -/
structure FieldBits {w : Nat} (bits : BitVec w) (min max : Nat) : Prop where
  inside : ∀ i, bits.getLsbD i = true → min ≤ i ∧ i ≤ max
  nonempty : ∃ i, bits.getLsbD i = true

theorem getLsbD_setBits {w step rangeMax : Nat} (turns : Nat) (result : BitVec w) (i : Nat) :
    (∀ j, result.getLsbD j = true → (setBits step rangeMax turns result i).getLsbD j = true) ∧
    (∀ j, (setBits step rangeMax turns result i).getLsbD j = true →
      result.getLsbD j = true ∨ i ≤ j ∧ j ≤ rangeMax) := by
  induction turns generalizing result i with
  | zero => exact ⟨fun _ isSet => isSet, fun _ isSet => .inl isSet⟩
  | succ turns ih =>
      have kept (j : Nat) (isSet : result.getLsbD j = true) :
          (result ||| (1#w <<< i)).getLsbD j = true := by
        rw [BitVec.getLsbD_or, isSet, Bool.true_or]
      have added (j : Nat) (isSet : (result ||| (1#w <<< i)).getLsbD j = true) :
          result.getLsbD j = true ∨ j = i := by
        rw [BitVec.getLsbD_or, Bool.or_eq_true] at isSet
        rcases isSet with old | new
        · exact .inl old
        · right
          simp only [BitVec.getLsbD_shiftLeft, Bool.and_eq_true, decide_eq_true_eq,
            BitVec.getLsbD_one, Bool.not_eq_true'] at new
          have notLess := of_decide_eq_false new.1.2
          omega
      unfold setBits
      split
      · next inRange =>
        dsimp only
        split
        · refine ⟨kept, fun j isSet => ?_⟩
          rcases added j isSet with old | rfl
          · exact .inl old
          · exact .inr ⟨Nat.le_refl _, inRange⟩
        · obtain ⟨more, only⟩ := ih (result ||| (1#w <<< i)) (i + step)
          refine ⟨fun j isSet => more j (kept j isSet), fun j isSet => ?_⟩
          rcases only j isSet with old | ⟨behind, upTo⟩
          · rcases added j old with old | rfl
            · exact .inl old
            · exact .inr ⟨Nat.le_refl _, inRange⟩
          · exact .inr ⟨by omega, upTo⟩
      · exact ⟨fun _ isSet => isSet, fun _ isSet => .inl isSet⟩

/-- The first bit of a range is set. -/
theorem setBits_first {w step rangeMax turns i : Nat} (result : BitVec w) (inRange : i ≤ rangeMax)
    (inWidth : i < w) : (setBits step rangeMax (turns + 1) result i).getLsbD i = true := by
  have isNew : (result ||| (1#w <<< i)).getLsbD i = true := by
    have isBit : (1#w <<< i).getLsbD i = true := by
      simp [inWidth]
    rw [BitVec.getLsbD_or, isBit, Bool.or_true]
  unfold setBits
  rw [if_pos inRange]
  dsimp only
  split
  · exact isNew
  · exact (getLsbD_setBits turns _ _).1 i isNew

/-! ### What a parser accepts -/

/-- The names of a field are in its range. -/
def NamesFit (kind : NameKind) (min max : Nat) : Prop :=
  ∀ str v, namedValue str kind = some v → min ≤ v ∧ v ≤ max

theorem inMap_mem {key : Bytes} {map : List (String × Nat)} {v : Nat}
    (found : inMapCaseInsensitive key map = some v) : ∃ entry ∈ map, entry.2 = v := by
  obtain ⟨entry, isFound, isValue⟩ := Option.map_eq_some_iff.mp found
  exact ⟨entry, List.mem_of_find?_eq_some isFound, isValue⟩

theorem namesFit_none (min max : Nat) : NamesFit .none min max := by
  intro str v found
  cases found

theorem namesFit_month : NamesFit .month 1 12 := by
  intro str v found
  obtain ⟨entry, member, rfl⟩ := inMap_mem found
  have all : monthMap.all (fun entry => 1 ≤ entry.2 && entry.2 ≤ 12) = true := rfl
  simpa using List.all_eq_true.mp all entry member

theorem namesFit_weekday : NamesFit .weekday 0 7 := by
  intro str v found
  obtain ⟨entry, member, rfl⟩ := inMap_mem found
  have all : weekdayMap.all (fun entry => 0 ≤ entry.2 && entry.2 ≤ 7) = true := rfl
  simpa using List.all_eq_true.mp all entry member

section Accepted

variable {w min max : Nat} {kind : NameKind}

theorem parseValue_range (names : NamesFit kind min max) {str : Bytes} {v : Nat}
    (isValue : parseValue str min max kind = .ok v) : min ≤ v ∧ v ≤ max := by
  unfold parseValue at isValue
  split at isValue
  · next isName =>
    cases isValue
    exact names str v isName
  · split at isValue
    · cases isValue
    · split at isValue
      · cases isValue
      · next notOut =>
        cases isValue
        omega

theorem parseBase_range (names : NamesFit kind min max) (ordered : min ≤ max) {base : Bytes}
    {hasStep : Bool} {lo hi : Nat} (isBase : parseBase base hasStep min max kind = .ok (lo, hi)) :
    min ≤ lo ∧ lo ≤ hi ∧ hi ≤ max := by
  unfold parseBase at isBase
  split at isBase
  · cases isBase
    exact ⟨Nat.le_refl _, ordered, Nat.le_refl _⟩
  · split at isBase
    · obtain ⟨first, isFirst, isBase⟩ := ok_of_bind isBase
      obtain ⟨last, isLast, isBase⟩ := ok_of_bind isBase
      have firstRange := parseValue_range names isFirst
      have lastRange := parseValue_range names isLast
      split at isBase
      · cases isBase
      · cases isBase
        omega
    · obtain ⟨first, isFirst, isBase⟩ := ok_of_bind isBase
      have firstRange := parseValue_range names isFirst
      cases isBase
      refine ⟨firstRange.1, ?_, ?_⟩
      · split
        · exact firstRange.2
        · exact Nat.le_refl _
      · split
        · exact Nat.le_refl _
        · exact firstRange.2

theorem parsePart_bits (names : NamesFit kind min max) (ordered : min ≤ max) (inWidth : max < w)
    {result bits : BitVec w} {part : Bytes}
    (inside : ∀ i, result.getLsbD i = true → min ≤ i ∧ i ≤ max)
    (isPart : parsePart min max kind result part = .ok bits) : FieldBits bits min max := by
  unfold parsePart at isPart
  split at isPart
  · cases isPart
  · split at isPart
    · cases isPart
    · split at isPart
      · cases isPart
      · obtain ⟨step, -, isPart⟩ := ok_of_bind isPart
        obtain ⟨⟨lo, hi⟩, isBase, isPart⟩ := ok_of_bind isPart
        obtain ⟨notBelow, inRange, notAbove⟩ := parseBase_range names ordered isBase
        cases isPart
        constructor
        · intro i isSet
          rcases (getLsbD_setBits _ result lo).2 i isSet with old | ⟨behind, upTo⟩
          · exact inside i old
          · exact ⟨by omega, by omega⟩
        · refine ⟨lo, ?_⟩
          have turns : hi + 1 - lo = hi - lo + 1 := by omega
          rw [turns]
          exact setBits_first result inRange (by omega)

theorem foldParts_bits (names : NamesFit kind min max) (ordered : min ≤ max) (inWidth : max < w)
    {parts : List Bytes} (nonempty : parts ≠ []) {result bits : BitVec w}
    (inside : ∀ i, result.getLsbD i = true → min ≤ i ∧ i ≤ max)
    (isFold : parts.foldlM (parsePart min max kind) result = .ok bits) : FieldBits bits min max := by
  induction parts generalizing result with
  | nil => exact absurd rfl nonempty
  | cons part rest ih =>
      rw [List.foldlM_cons] at isFold
      obtain ⟨next, isPart, isFold⟩ := ok_of_bind isFold
      have isNext := parsePart_bits names ordered inWidth inside isPart
      cases rest with
      | nil =>
          cases isFold
          exact isNext
      | cons part' rest => exact ih (List.cons_ne_nil _ _) isNext.inside isFold

theorem parseField_bits (names : NamesFit kind min max) (ordered : min ≤ max) (inWidth : max < w)
    (notWeekday : kind ≠ .weekday) {field : Bytes} {bits : BitVec w}
    (isField : parseField w field min max kind = .ok bits) : FieldBits bits min max := by
  unfold parseField at isField
  by_cases isEmpty : field = []
  · rw [if_pos isEmpty] at isField
    cases isField
  · rw [if_neg isEmpty] at isField
    obtain ⟨result, isFold, isField⟩ := ok_of_bind isField
    rw [if_neg notWeekday] at isField
    cases isField
    exact foldParts_bits names ordered inWidth (List.splitOnP_ne_nil _ _)
      (fun i isSet => by simp at isSet) isFold

/-- Sunday as 7 becomes bit 0. -/
theorem parseField_weekdayBits {field : Bytes} {bits : BitVec 8}
    (isField : parseField 8 field 0 7 .weekday = .ok bits) : FieldBits bits 0 6 := by
  unfold parseField at isField
  by_cases isEmpty : field = []
  · rw [if_pos isEmpty] at isField
    cases isField
  · rw [if_neg isEmpty] at isField
    obtain ⟨result, isFold, isField⟩ := ok_of_bind isField
    have isResult := foldParts_bits namesFit_weekday (by decide) (by decide)
      (List.splitOnP_ne_nil _ _) (fun i isSet => by simp at isSet) isFold
    cases isField
    have isLow : ∀ i : Fin 8, (BitVec.ofNat 8 127).getLsbD i = decide (i.val ≤ 6) := by decide
    constructor
    · intro i isSet
      rw [BitVec.getLsbD_and, Bool.and_eq_true] at isSet
      have inWidth : i < 8 := BitVec.lt_of_getLsbD isSet.2
      have low := isLow ⟨i, inWidth⟩
      rw [isSet.2] at low
      exact ⟨Nat.zero_le _, of_decide_eq_true low.symm⟩
    · obtain ⟨i, isSet⟩ := isResult.nonempty
      have bounds := isResult.inside i isSet
      rcases Nat.lt_or_ge i 7 with low | isSeven
      · refine ⟨i, ?_⟩
        rw [BitVec.getLsbD_and, BitVec.getLsbD_or, isSet, isLow ⟨i, by omega⟩]
        simp only [Bool.true_or, Bool.true_and, decide_eq_true_eq]
        omega
      · obtain rfl : i = 7 := by omega
        refine ⟨0, ?_⟩
        rw [BitVec.getLsbD_and, BitVec.getLsbD_or, BitVec.getLsbD_ushiftRight, isSet,
          isLow ⟨0, by decide⟩]
        simp

end Accepted

/-- The fields of an expression have bits in their ranges. -/
structure CronExpression.InRange (e : CronExpression) : Prop where
  minutes : FieldBits e.minutes 0 59
  hours : FieldBits e.hours 0 23
  days : FieldBits e.days 1 31
  months : FieldBits e.months 1 12
  weekdays : FieldBits e.weekdays 0 6

theorem fieldBits_table {w : Nat} {bits : BitVec w} {min max : Nat}
    (isBits : (List.range w).all (fun i => !bits.getLsbD i || (min ≤ i && i ≤ max)) = true)
    (first : bits.getLsbD min = true) : FieldBits bits min max := by
  constructor
  · intro i isSet
    have inside : i < w := BitVec.lt_of_getLsbD isSet
    have both := List.all_eq_true.mp isBits i (List.mem_range.mpr inside)
    rw [isSet] at both
    simpa using both
  · exact ⟨min, first⟩

theorem fieldBits_allHours : FieldBits allHours 0 23 := fieldBits_table rfl rfl
theorem fieldBits_allDays : FieldBits allDays 1 31 := fieldBits_table rfl rfl
theorem fieldBits_allMonths : FieldBits allMonths 1 12 := fieldBits_table rfl rfl
theorem fieldBits_allWeekdays : FieldBits allWeekdays 0 6 := fieldBits_table rfl rfl

theorem parseNickname_inRange {expr : Bytes} {e : CronExpression}
    (parsed : parseNickname expr = some e) : e.InRange := by
  have minute : FieldBits (1 : BitVec 64) 0 59 := fieldBits_table rfl rfl
  have hour : FieldBits (1 : BitVec 32) 0 23 := fieldBits_table rfl rfl
  have day : FieldBits (1#32 <<< 1) 1 31 := fieldBits_table rfl rfl
  have month : FieldBits (1#16 <<< 1) 1 12 := fieldBits_table rfl rfl
  have weekday : FieldBits (1 : BitVec 8) 0 6 := fieldBits_table rfl rfl
  unfold parseNickname at parsed
  split at parsed
  · cases parsed
    exact ⟨minute, hour, day, month, fieldBits_allWeekdays⟩
  split at parsed
  · cases parsed
    exact ⟨minute, hour, day, fieldBits_allMonths, fieldBits_allWeekdays⟩
  split at parsed
  · cases parsed
    exact ⟨minute, hour, fieldBits_allDays, fieldBits_allMonths, weekday⟩
  split at parsed
  · cases parsed
    exact ⟨minute, hour, fieldBits_allDays, fieldBits_allMonths, fieldBits_allWeekdays⟩
  split at parsed
  · cases parsed
    exact ⟨minute, fieldBits_allHours, fieldBits_allDays, fieldBits_allMonths,
      fieldBits_allWeekdays⟩
  · cases parsed

/-- Parsed fields are in their ranges, and none is empty. -/
theorem parse_inRange {input : Bytes} {e : CronExpression} (parsed : parse input = .ok e) :
    e.InRange := by
  unfold parse at parsed
  simp only at parsed
  split at parsed
  · split at parsed
    · cases parsed
      exact parseNickname_inRange ‹_›
    · cases parsed
  split at parsed
  · obtain ⟨minutes, isMinutes, parsed⟩ := ok_of_bind parsed
    obtain ⟨hours, isHours, parsed⟩ := ok_of_bind parsed
    obtain ⟨days, isDays, parsed⟩ := ok_of_bind parsed
    obtain ⟨months, isMonths, parsed⟩ := ok_of_bind parsed
    obtain ⟨weekdays, isWeekdays, parsed⟩ := ok_of_bind parsed
    cases parsed
    constructor
    · exact parseField_bits (namesFit_none _ _) (by decide) (by decide) (by decide) isMinutes
    · exact parseField_bits (namesFit_none _ _) (by decide) (by decide) (by decide) isHours
    · exact parseField_bits (namesFit_none _ _) (by decide) (by decide) (by decide) isDays
    · exact parseField_bits namesFit_month (by decide) (by decide) (by decide) isMonths
    · exact parseField_weekdayBits isWeekdays
  · cases parsed

/-! ### Full fields -/

section Full

variable {w min max : Nat} {bits : BitVec w}

/-- A field has as many bits as its range has values exactly where it has them all. -/
theorem countOnes_full_iff (field : FieldBits bits min max) (inWidth : max < w) :
    countOnes bits = max - min + 1 ↔ ∀ i, min ≤ i → i ≤ max → bits.getLsbD i = true := by
  obtain ⟨first, isFirst⟩ := field.nonempty
  have ordered := field.inside first isFirst
  have outside (list : List Nat) (none : ∀ i ∈ list, i < min ∨ max < i) :
      list.countP bits.getLsbD = 0 := by
    rw [List.countP_eq_zero]
    intro i member isSet
    have inside := field.inside i isSet
    have out := none i member
    omega
  obtain ⟨k, rfl⟩ := Nat.exists_eq_add_of_le (Nat.le_trans ordered.1 ordered.2)
  obtain ⟨r, rfl⟩ := Nat.exists_eq_add_of_lt inWidth
  have isRange : List.range (min + k + r + 1) =
      List.range' 0 min ++ (List.range' min (k + 1) ++ List.range' (min + (k + 1)) r) := by
    have front : List.range' 0 min ++ List.range' (0 + min) (k + 1 + r) =
        List.range' 0 (min + (k + 1 + r)) := List.range'_append_1
    rw [Nat.zero_add] at front
    rw [List.range'_append_1, front, List.range_eq_range']
    congr 1
    omega
  have isCount : countOnes bits = (List.range' min (k + 1)).countP bits.getLsbD := by
    unfold countOnes
    rw [isRange, List.countP_append, List.countP_append, outside (List.range' 0 min),
      outside (List.range' (min + (k + 1)) r), Nat.zero_add, Nat.add_zero]
    · intro i member
      have bounds := List.mem_range'_1.mp member
      omega
    · intro i member
      have bounds := List.mem_range'_1.mp member
      omega
  have isFull : (List.range' min (k + 1)).countP bits.getLsbD = k + 1 ↔
      ∀ i ∈ List.range' min (k + 1), bits.getLsbD i = true := by
    have all := List.countP_eq_length (p := bits.getLsbD) (l := List.range' min (k + 1))
    rwa [List.length_range'] at all
  rw [isCount, Nat.add_sub_cancel_left, isFull]
  constructor
  · intro all i behind upTo
    exact all i (List.mem_range'_1.mpr (by omega))
  · intro all i member
    have bounds := List.mem_range'_1.mp member
    exact all i (by omega) (by omega)

/-- Two fields with the same values are the same. -/
theorem field_ext {other : BitVec w} (field : FieldBits bits min max)
    (field' : FieldBits other min max)
    (same : ∀ i, min ≤ i → i ≤ max → bits.getLsbD i = other.getLsbD i) : bits = other := by
  apply BitVec.eq_of_getLsbD_eq
  intro i _
  by_cases inRange : min ≤ i ∧ i ≤ max
  · exact same i inRange.1 inRange.2
  · have unset {b : BitVec w} (isField : FieldBits b min max) : b.getLsbD i = false := by
      by_contra isSet
      exact inRange (isField.inside i (by simpa using isSet))
    rw [unset field, unset field']

theorem full_iff {full : BitVec w} (field : FieldBits bits min max) (inWidth : max < w)
    (isFull : FieldBits full min max) (all : (List.range' min (max - min + 1)).all full.getLsbD) :
    countOnes bits = max - min + 1 ↔ bits = full := by
  have allSet (i : Nat) (behind : min ≤ i) (upTo : i ≤ max) : full.getLsbD i = true :=
    List.all_eq_true.mp all i (List.mem_range'_1.mpr (by omega))
  rw [countOnes_full_iff field inWidth]
  constructor
  · intro allBits
    apply field_ext field isFull
    intro i behind upTo
    rw [allBits i behind upTo, allSet i behind upTo]
  · rintro rfl
    exact allSet

end Full

/-! ### Reading what was written -/

theorem digit_bounds {n : Nat} {c : UInt8} (member : c ∈ decimal n) :
    c ≠ 42 ∧ c ≠ 44 ∧ c ≠ 45 ∧ c ≠ 47 ∧ c ≠ 32 ∧ c ≠ 9 ∧ c ≠ 64 ∧ toAsciiLowercase c = c ∧
      c < 97 := by
  obtain ⟨low, high⟩ := decimal_digit member
  have notByte (b : UInt8) (out : b.toNat < 0x30 ∨ 0x39 < b.toNat) : c ≠ b := by
    rintro rfl
    omega
  have notUpper : ¬ (65 ≤ c ∧ c ≤ 90) := by
    rintro ⟨isUpper, -⟩
    have bound : (65 : UInt8).toNat ≤ c.toNat := isUpper
    exact absurd (Nat.le_trans bound high) (by decide)
  refine ⟨notByte _ (by decide), notByte _ (by decide), notByte _ (by decide),
    notByte _ (by decide), notByte _ (by decide), notByte _ (by decide), notByte _ (by decide),
    if_neg notUpper, ?_⟩
  show c.toNat < 97
  omega

/-- Numbers are not names. -/
theorem namedValue_decimal (n : Nat) (kind : NameKind) : namedValue (decimal n) kind = none := by
  have none_of {map : List (String × Nat)}
      (letters : map.all (fun entry => (ascii entry.1).head?.any fun c => 97 ≤ c) = true) :
      inMapCaseInsensitive (decimal n) map = none := by
    unfold inMapCaseInsensitive
    rw [Option.map_eq_none_iff, List.find?_eq_none]
    intro entry member same
    have letter := List.all_eq_true.mp letters entry member
    rw [eq_of_beq same] at letter
    cases isDigits : decimal n with
    | nil => exact decimal_ne_nil n isDigits
    | cons c rest =>
        obtain ⟨-, -, -, -, -, -, -, lower, small⟩ :=
          digit_bounds (n := n) (c := c) (by rw [isDigits]; exact List.mem_cons_self ..)
        rw [isDigits, List.map_cons, lower] at letter
        exact absurd small (UInt8.not_lt.mpr (of_decide_eq_true letter))
  cases kind with
  | none => rfl
  | weekday => exact none_of rfl
  | month => exact none_of rfl

theorem parseDecimal_decimal {n : Nat} (small : n < 60) : parseDecimal (decimal n) = some n := by
  have table : ∀ n : Fin 60, parseDecimal (decimal n) = some n.val := by decide
  exact table ⟨n, small⟩

section Written

variable {w min max : Nat} {kind : NameKind}

theorem parseValue_decimal {n : Nat} (small : n < 60) (inRange : min ≤ n ∧ n ≤ max) :
    parseValue (decimal n) min max kind = .ok n := by
  unfold parseValue
  rw [namedValue_decimal, parseDecimal_decimal small]
  exact if_neg (by omega)

theorem parsePart_decimal {n : Nat} (small : n < 60) (inRange : min ≤ n ∧ n ≤ max)
    (result : BitVec w) :
    parsePart min max kind result (decimal n) = .ok (result ||| (1#w <<< n)) := by
  have noSlash : (decimal n).splitOnP (· == 47) = [decimal n] :=
    List.splitOnP_eq_singleton fun c member =>
      beq_eq_false_iff_ne.mpr (digit_bounds member).2.2.2.1
  have notStar : decimal n ≠ ascii "*" := by
    intro isStar
    have member : (42 : UInt8) ∈ decimal n := by
      rw [isStar]
      exact List.mem_cons_self ..
    exact (digit_bounds member).1 rfl
  have noRange : splitRange (decimal n) = none := by
    unfold splitRange
    rw [List.findIdx?_eq_none_iff.mpr fun c member =>
      beq_eq_false_iff_ne.mpr (digit_bounds member).2.2.1]
  have isBase : parseBase (decimal n) false min max kind = .ok (n, n) := by
    unfold parseBase
    rw [if_neg notStar, noRange, parseValue_decimal small inRange]
    rfl
  have isBits : setBits 1 n (n + 1 - n) result n = result ||| (1#w <<< n) := by
    rw [Nat.add_sub_cancel_left]
    unfold setBits
    rw [if_pos (Nat.le_refl n)]
    dsimp only
    rw [if_pos (Nat.lt_succ_self n)]
  unfold parsePart
  rw [if_neg (decimal_ne_nil n), noSlash]
  show (if 1 < 0 then _ else _) = _
  rw [if_neg (Nat.not_lt_zero 1)]
  show (Except.bind _ _) = _
  rw [show parseStep ([] : List Bytes).head? = .ok 1 from rfl]
  show (Except.bind (parseBase (decimal n) false min max kind) _) = _
  rw [isBase]
  show Except.ok (setBits 1 n (n + 1 - n) result n) = _
  rw [isBits]

theorem formatBits_false (bits : BitVec w) (list : List Nat) :
    formatBits bits list false =
      (list.filter fun i => bitSet bits i).flatMap fun i => 44 :: decimal i := by
  induction list with
  | nil => rfl
  | cons i rest ih =>
      unfold formatBits
      by_cases isSet : bitSet bits i = true
      · rw [if_pos isSet, List.filter_cons_of_pos isSet, List.flatMap_cons, ih]
        rfl
      · rw [if_neg isSet, List.filter_cons_of_neg isSet, ih]

theorem formatBits_true (bits : BitVec w) (list : List Nat) {v : Nat} {vs : List Nat}
    (isValues : list.filter (fun i => bitSet bits i) = v :: vs) :
    formatBits bits list true = decimal v ++ vs.flatMap fun i => 44 :: decimal i := by
  induction list with
  | nil => cases isValues
  | cons i rest ih =>
      unfold formatBits
      by_cases isSet : bitSet bits i = true
      · rw [List.filter_cons_of_pos isSet] at isValues
        obtain ⟨rfl, rfl⟩ := List.cons.inj isValues
        rw [if_pos isSet, formatBits_false]
        rfl
      · rw [List.filter_cons_of_neg isSet] at isValues
        rw [if_neg isSet, ih isValues]

theorem splitOnP_values (v : Nat) (vs : List Nat) :
    (decimal v ++ vs.flatMap fun i => 44 :: decimal i).splitOnP (· == 44) =
      (v :: vs).map decimal := by
  have noComma (n : Nat) : ∀ c ∈ decimal n, (c == 44) = false := fun c member =>
    beq_eq_false_iff_ne.mpr (digit_bounds member).2.1
  induction vs generalizing v with
  | nil =>
      rw [List.flatMap_nil, List.append_nil, List.splitOnP_eq_singleton (noComma v)]
      rfl
  | cons next vs ih =>
      rw [List.flatMap_cons, List.cons_append,
        List.splitOnP_append_cons_of_forall_mem (noComma v) 44 rfl, ih]
      rfl

theorem foldParts_values {values : List Nat} (small : ∀ v ∈ values, v < 60)
    (inRange : ∀ v ∈ values, min ≤ v ∧ v ≤ max) (result : BitVec w) :
    (values.map decimal).foldlM (parsePart min max kind) result =
      .ok (values.foldl (fun result v => result ||| (1#w <<< v)) result) := by
  induction values generalizing result with
  | nil => rfl
  | cons v rest ih =>
      rw [List.map_cons, List.foldlM_cons,
        parsePart_decimal (small v (List.mem_cons_self ..)) (inRange v (List.mem_cons_self ..))]
      exact ih (fun v member => small v (List.mem_cons_of_mem _ member))
        (fun v member => inRange v (List.mem_cons_of_mem _ member)) _

theorem getLsbD_foldl (values : List Nat) (result : BitVec w) {j : Nat} (inWidth : j < w) :
    (values.foldl (fun result v => result ||| (1#w <<< v)) result).getLsbD j = true ↔
      result.getLsbD j = true ∨ j ∈ values := by
  induction values generalizing result with
  | nil => simp
  | cons v rest ih =>
      have isBit : (1#w <<< v).getLsbD j = true ↔ j = v := by
        simp only [BitVec.getLsbD_shiftLeft, inWidth, BitVec.getLsbD_one, Bool.and_eq_true,
          decide_eq_true_eq, Bool.not_eq_true', true_and]
        constructor
        · rintro ⟨notLess, -, isZero⟩
          have bound := of_decide_eq_false notLess
          omega
        · rintro rfl
          simp
          omega
      rw [List.foldl_cons, ih, BitVec.getLsbD_or, Bool.or_eq_true, isBit,
        List.mem_cons, or_assoc]

variable {bits : BitVec w}

/-- The values of a field are read back as its bits. -/
theorem foldParts_field (field : FieldBits bits min max) (inWidth : max < w) :
    ((List.range' min (max - min + 1)).filter fun i => bitSet bits i).foldl
      (fun result v => result ||| (1#w <<< v)) (0#w) = bits := by
  apply BitVec.eq_of_getLsbD_eq
  intro j inside
  have positive : 0 < w := Nat.lt_of_le_of_lt (Nat.zero_le _) inWidth
  have isMember : j ∈ (List.range' min (max - min + 1)).filter (fun i => bitSet bits i) ↔
      bits.getLsbD j = true := by
    rw [List.mem_filter, bitSet_eq positive, List.mem_range'_1]
    constructor
    · exact And.right
    · intro isSet
      have bounds := field.inside j isSet
      exact ⟨by omega, isSet⟩
  have both := getLsbD_foldl ((List.range' min (max - min + 1)).filter fun i => bitSet bits i)
    (0#w) inside
  rw [BitVec.getLsbD_zero, isMember, or_iff_right Bool.false_ne_true] at both
  exact Bool.eq_iff_iff.mpr both

/-- What is written for a field that is not full is read back; `fold` is what the reader does with
Sunday. -/
theorem parseField_values (field : FieldBits bits min max) (inWidth : max < w) (small : max < 60)
    {max' : Nat} (wider : max ≤ max') (notFull : countOnes bits ≠ max - min + 1) :
    parseField w (formatBitfield bits min max) min max' kind =
      .ok (if kind = .weekday then (bits ||| (bits >>> 7)) &&& BitVec.ofNat w 127 else bits) := by
  have positive : 0 < w := Nat.lt_of_le_of_lt (Nat.zero_le _) inWidth
  obtain ⟨first, isFirst⟩ := field.nonempty
  have bounds := field.inside first isFirst
  have isMember : first ∈ (List.range' min (max - min + 1)).filter (fun i => bitSet bits i) := by
    rw [List.mem_filter, bitSet_eq positive, List.mem_range'_1]
    exact ⟨by omega, isFirst⟩
  have isBits := foldParts_field field inWidth
  have allRange : ∀ v ∈ (List.range' min (max - min + 1)).filter (fun i => bitSet bits i),
      min ≤ v ∧ v ≤ max := by
    intro v member
    have bounds := List.mem_range'_1.mp (List.mem_filter.mp member).1
    omega
  cases isValues : (List.range' min (max - min + 1)).filter (fun i => bitSet bits i) with
  | nil =>
      rw [isValues] at isMember
      cases isMember
  | cons v vs =>
      rw [isValues] at isBits allRange
      have isText : formatBitfield bits min max =
          decimal v ++ vs.flatMap fun i => 44 :: decimal i := by
        unfold formatBitfield
        rw [if_neg notFull, formatBits_true bits _ isValues]
      have nonempty : decimal v ++ (vs.flatMap fun i => 44 :: decimal i) ≠ [] := by
        intro isNil
        exact decimal_ne_nil v (List.append_eq_nil_iff.mp isNil).1
      unfold parseField
      rw [isText, if_neg nonempty, splitOnP_values, foldParts_values
        (fun v member => Nat.lt_of_le_of_lt (allRange v member).2 small)
        (fun v member => ⟨(allRange v member).1, Nat.le_trans (allRange v member).2 wider⟩), isBits]
      show (if kind = .weekday then _ else _) = _
      split
      · rfl
      · rfl

/-- A byte that is written for a field ends neither a field nor the text. -/
theorem formatBitfield_byte {c : UInt8} (member : c ∈ formatBitfield bits min max) :
    c ≠ 32 ∧ c ≠ 9 ∧ c ≠ 64 := by
  have ofBits (list : List Nat) (first : Bool) (member : c ∈ formatBits bits list first) :
      c ≠ 32 ∧ c ≠ 9 ∧ c ≠ 64 := by
    induction list generalizing first with
    | nil => cases member
    | cons i rest ih =>
        unfold formatBits at member
        split at member
        · rw [List.mem_append, List.mem_append] at member
          rcases member with (isComma | isDigit) | isRest
          · cases first with
            | true => cases isComma
            | false =>
                obtain rfl := List.mem_singleton.mp isComma
                decide
          · have bounds := digit_bounds isDigit
            exact ⟨bounds.2.2.2.2.1, bounds.2.2.2.2.2.1, bounds.2.2.2.2.2.2.1⟩
          · exact ih false isRest
        · exact ih first member
  unfold formatBitfield at member
  split at member
  · obtain rfl := List.mem_singleton.mp member
    decide
  · exact ofBits _ _ member

/-- A value takes two digits and a comma at most. -/
theorem length_formatBitfield (bits : BitVec w) (small : max < 60) (ordered : min ≤ max) :
    (formatBitfield bits min max).length ≤ 3 * (max - min + 1) := by
  have digits : ∀ n : Fin 60, (decimal n).length ≤ 2 := by decide
  have ofBits (list : List Nat) (first : Bool) (allSmall : ∀ i ∈ list, i < 60) :
      (formatBits bits list first).length ≤ 3 * list.length := by
    induction list generalizing first with
    | nil => exact Nat.le_refl _
    | cons i rest ih =>
        have restSmall : ∀ j ∈ rest, j < 60 := fun j member =>
          allSmall j (List.mem_cons_of_mem _ member)
        have two := digits ⟨i, allSmall i (List.mem_cons_self ..)⟩
        have rest_le := ih false restSmall
        have rest_le' := ih first restSmall
        have comma : (if first then ([] : Bytes) else [44]).length ≤ 1 := by
          cases first <;> decide
        unfold formatBits
        split
        · rw [List.length_append, List.length_append, List.length_cons]
          dsimp only at two
          omega
        · rw [List.length_cons]
          omega
  unfold formatBitfield
  split
  · show 1 ≤ _
    omega
  · have bound := ofBits (List.range' min (max - min + 1)) true fun i member => by
      have bounds := List.mem_range'_1.mp member
      omega
    rwa [List.length_range'] at bound

/-- What is not full begins with a digit. -/
theorem formatBitfield_digit (field : FieldBits bits min max) (inWidth : max < w)
    (notFull : countOnes bits ≠ max - min + 1) :
    ∃ v rest, formatBitfield bits min max = decimal v ++ rest := by
  have positive : 0 < w := Nat.lt_of_le_of_lt (Nat.zero_le _) inWidth
  obtain ⟨first, isFirst⟩ := field.nonempty
  have bounds := field.inside first isFirst
  unfold formatBitfield
  rw [if_neg notFull]
  cases isValues : (List.range' min (max - min + 1)).filter (fun i => bitSet bits i) with
  | nil =>
      have isMember : first ∈ (List.range' min (max - min + 1)).filter fun i => bitSet bits i := by
        rw [List.mem_filter, bitSet_eq positive, List.mem_range'_1]
        exact ⟨by omega, isFirst⟩
      rw [isValues] at isMember
      cases isMember
  | cons v vs => exact ⟨v, _, formatBits_true bits _ isValues⟩

theorem formatBitfield_ne_nil (field : FieldBits bits min max) (inWidth : max < w) :
    formatBitfield bits min max ≠ [] := by
  by_cases isFull : countOnes bits = max - min + 1
  · unfold formatBitfield
    rw [if_pos isFull]
    exact List.cons_ne_nil _ _
  · obtain ⟨v, rest, isText⟩ := formatBitfield_digit field inWidth isFull
    rw [isText]
    intro isNil
    exact decimal_ne_nil v (List.append_eq_nil_iff.mp isNil).1

theorem formatBitfield_star_iff (field : FieldBits bits min max) (inWidth : max < w) :
    formatBitfield bits min max = ascii "*" ↔ countOnes bits = max - min + 1 := by
  constructor
  · intro isStar
    by_contra notFull
    obtain ⟨v, rest, isText⟩ := formatBitfield_digit field inWidth notFull
    rw [isStar] at isText
    cases isDigits : decimal v with
    | nil => exact decimal_ne_nil v isDigits
    | cons c more =>
        rw [isDigits] at isText
        have isHead : c = 42 := (List.cons.inj isText).1.symm
        exact (digit_bounds (n := v) (c := c) (by rw [isDigits]; exact List.mem_cons_self ..)).1
          isHead
  · intro isFull
    unfold formatBitfield
    exact if_pos isFull

/-- Every field is read back; `full` is what the reader makes of `*`. -/
theorem parseField_format (field : FieldBits bits min max) (inWidth : max < w) (small : max < 60)
    {max' : Nat} (wider : max ≤ max') {full : BitVec w} (isFull : FieldBits full min max)
    (all : (List.range' min (max - min + 1)).all full.getLsbD)
    (star : parseField w (ascii "*") min max' kind = .ok full)
    (folded : (if kind = .weekday then (bits ||| (bits >>> 7)) &&& BitVec.ofNat w 127 else bits) =
      bits) :
    parseField w (formatBitfield bits min max) min max' kind = .ok bits := by
  by_cases hasAll : countOnes bits = max - min + 1
  · rw [(formatBitfield_star_iff field inWidth).mpr hasAll, star,
      (full_iff field inWidth isFull all).mp hasAll]
  · rw [parseField_values field inWidth small wider hasAll, folded]

end Written

/-- Nothing is left of Sunday as 7. -/
theorem fold_weekdays {bits : BitVec 8} (field : FieldBits bits 0 6) :
    (bits ||| (bits >>> 7)) &&& BitVec.ofNat 8 127 = bits := by
  have mask : ∀ i : Fin 7, (BitVec.ofNat 8 127).getLsbD i = true := by decide
  apply BitVec.eq_of_getLsbD_eq
  intro i _
  have noHigh : bits.getLsbD (7 + i) = false := by
    by_contra isSet
    have bounds := field.inside (7 + i) (by simpa using isSet)
    omega
  rw [BitVec.getLsbD_and, BitVec.getLsbD_or, BitVec.getLsbD_ushiftRight, noHigh, Bool.or_false]
  cases isSet : bits.getLsbD i with
  | false => rfl
  | true =>
      have bounds := field.inside i isSet
      exact mask ⟨i, by omega⟩

/-! ### Whole expressions -/

def allMinutes : BitVec 64 := BitVec.ofNat 64 (2 ^ 60 - 1)

theorem fieldBits_allMinutes : FieldBits allMinutes 0 59 := fieldBits_table rfl rfl

set_option maxRecDepth 1000 in
theorem parseField_minutes : parseField 64 (ascii "*") 0 59 .none = .ok allMinutes := rfl

/-- The text of an expression. -/
def CronExpression.text (e : CronExpression) : Bytes :=
  formatBitfield e.minutes 0 59 ++ [32] ++ formatBitfield e.hours 0 23 ++ [32] ++
    formatBitfield e.days 1 31 ++ [32] ++ formatBitfield e.months 1 12 ++ [32] ++
    formatBitfield e.weekdays 0 6

/-- The text fits. -/
theorem formatNumeric_text (e : CronExpression) : e.formatNumeric = some e.text := by
  have minutes := @length_formatBitfield _ 0 59 e.minutes (by decide) (by decide)
  have hours := @length_formatBitfield _ 0 23 e.hours (by decide) (by decide)
  have days := @length_formatBitfield _ 1 31 e.days (by decide) (by decide)
  have months := @length_formatBitfield _ 1 12 e.months (by decide) (by decide)
  have weekdays := @length_formatBitfield _ 0 6 e.weekdays (by decide) (by decide)
  apply if_pos
  simp only [List.length_append, List.length_cons, List.length_nil, bufferLength]
  omega

theorem trim_of_ends {s chars : Bytes} (noFirst : ∀ c ∈ s.head?, chars.contains c = false)
    (noLast : ∀ c ∈ s.getLast?, chars.contains c = false) : trim s chars = s := by
  have kept {t : Bytes} (noHead : ∀ c ∈ t.head?, chars.contains c = false) :
      t.dropWhile chars.contains = t := by
    cases t with
    | nil => rfl
    | cons c rest => exact List.dropWhile_cons_of_neg (by rw [noHead c rfl]; exact Bool.false_ne_true)
  unfold trim trimLeft trimRight
  rw [kept noFirst, kept (by rwa [List.head?_reverse]), List.reverse_reverse]

/-- What a parser reads from the text: the same sets, and a field counts as `*` where its set is
full. -/
def CronExpression.normalised (e : CronExpression) : CronExpression :=
  { e with daysIsWildcard := e.days = allDays, weekdaysIsWildcard := e.weekdays = allWeekdays }

theorem parse_text {e : CronExpression} (inRange : e.InRange) :
    parse e.text = .ok e.normalised := by
  have noBlank {w min max : Nat} {bits : BitVec w} :
      ∀ b ∈ formatBitfield bits min max, (b == 32 || b == 9) = false := by
    intro b member
    have notBlank := formatBitfield_byte member
    rw [beq_eq_false_iff_ne.mpr notBlank.1, beq_eq_false_iff_ne.mpr notBlank.2.1]
    rfl
  have minutes := formatBitfield_ne_nil inRange.minutes (by decide)
  have hours := formatBitfield_ne_nil inRange.hours (by decide)
  have days := formatBitfield_ne_nil inRange.days (by decide)
  have months := formatBitfield_ne_nil inRange.months (by decide)
  have weekdays := formatBitfield_ne_nil inRange.weekdays (by decide)
  have isHead : e.text.head? = (formatBitfield e.minutes 0 59).head? := by
    unfold CronExpression.text
    simp only [List.append_assoc]
    exact List.head?_append_of_ne_nil _ minutes
  have isLast : e.text.getLast? = (formatBitfield e.weekdays 0 6).getLast? :=
    List.getLast?_append_of_ne_nil _ weekdays
  have noBlanks {b : UInt8} (notBlank : b ≠ 32 ∧ b ≠ 9 ∧ b ≠ 64) :
      ([32, 9] : Bytes).contains b = false := by
    simp [notBlank.1, notBlank.2.1]
  have isTrimmed : trim e.text [32, 9] = e.text := by
    apply trim_of_ends
    · rw [isHead]
      exact fun c isFirst => noBlanks (formatBitfield_byte (List.mem_of_mem_head? isFirst))
    · rw [isLast]
      exact fun c isFinal => noBlanks (formatBitfield_byte (List.mem_of_mem_getLast? isFinal))
  have noNickname : e.text.head? ≠ some 64 := by
    rw [isHead]
    intro isAt
    exact (formatBitfield_byte (List.mem_of_mem_head? isAt)).2.2 rfl
  have isSplit : (e.text.splitOnP fun b => b == 32 || b == 9) =
      [formatBitfield e.minutes 0 59, formatBitfield e.hours 0 23, formatBitfield e.days 1 31,
        formatBitfield e.months 1 12, formatBitfield e.weekdays 0 6] := by
    unfold CronExpression.text
    simp only [List.append_assoc, List.cons_append, List.nil_append]
    rw [List.splitOnP_append_cons_of_forall_mem noBlank 32 rfl,
      List.splitOnP_append_cons_of_forall_mem noBlank 32 rfl,
      List.splitOnP_append_cons_of_forall_mem noBlank 32 rfl,
      List.splitOnP_append_cons_of_forall_mem noBlank 32 rfl,
      List.splitOnP_eq_singleton noBlank]
  have isFields : ([formatBitfield e.minutes 0 59, formatBitfield e.hours 0 23,
      formatBitfield e.days 1 31, formatBitfield e.months 1 12,
      formatBitfield e.weekdays 0 6].filter (· ≠ [])) =
      [formatBitfield e.minutes 0 59, formatBitfield e.hours 0 23, formatBitfield e.days 1 31,
        formatBitfield e.months 1 12, formatBitfield e.weekdays 0 6] := by
    rw [List.filter_eq_self]
    intro field member
    simp only [List.mem_cons, List.not_mem_nil, or_false] at member
    rcases member with rfl | rfl | rfl | rfl | rfl <;> exact decide_eq_true ‹_›
  have isMinutes : parseField 64 (formatBitfield e.minutes 0 59) 0 59 .none = .ok e.minutes :=
    parseField_format inRange.minutes (by decide) (by decide) (Nat.le_refl _)
      fieldBits_allMinutes rfl parseField_minutes rfl
  have isHours : parseField 32 (formatBitfield e.hours 0 23) 0 23 .none = .ok e.hours :=
    parseField_format inRange.hours (by decide) (by decide) (Nat.le_refl _)
      fieldBits_allHours rfl rfl rfl
  have isDays : parseField 32 (formatBitfield e.days 1 31) 1 31 .none = .ok e.days :=
    parseField_format inRange.days (by decide) (by decide) (Nat.le_refl _)
      fieldBits_allDays rfl rfl rfl
  have isMonths : parseField 16 (formatBitfield e.months 1 12) 1 12 .month = .ok e.months :=
    parseField_format inRange.months (by decide) (by decide) (Nat.le_refl _)
      fieldBits_allMonths rfl rfl rfl
  have isWeekdays : parseField 8 (formatBitfield e.weekdays 0 6) 0 7 .weekday =
      .ok e.weekdays :=
    parseField_format inRange.weekdays (by decide) (by decide) (by decide)
      fieldBits_allWeekdays rfl rfl ((if_pos rfl).trans (fold_weekdays inRange.weekdays))
  have daysStar : formatBitfield e.days 1 31 = ascii "*" ↔ e.days = allDays :=
    (formatBitfield_star_iff inRange.days (by decide)).trans
      (full_iff inRange.days (by decide) fieldBits_allDays rfl)
  have weekdaysStar : formatBitfield e.weekdays 0 6 = ascii "*" ↔ e.weekdays = allWeekdays :=
    (formatBitfield_star_iff inRange.weekdays (by decide)).trans
      (full_iff inRange.weekdays (by decide) fieldBits_allWeekdays rfl)
  unfold parse
  simp only [isTrimmed, isSplit, isFields]
  rw [if_neg noNickname, isMinutes, isHours, isDays, isMonths, isWeekdays]
  unfold CronExpression.normalised
  simp only [daysStar, weekdaysStar]
  rfl

end Bunx.Cron
