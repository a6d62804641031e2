/-
Module: Bunx.Lib.Gregorian
Purpose: The proleptic Gregorian calendar: days counted from 1 January 1970, months and
  days that overflow, and the date of a day.
Trusted boundary: none
Main exports: isLeap, yearStart, monthStart, dayNumber, IsDate, IsDate.unique, civil,
  civil_isDate
-/
import Mathlib.Order.SuccPred.LinearLocallyFinite
import Mathlib.Algebra.Order.Group.Int
import Mathlib.Data.Int.ConditionallyCompleteOrder
import Mathlib.Data.Int.SuccPred

namespace Bunx.Lib.Gregorian

def isLeap (year : Int) : Bool :=
  year % 4 == 0 && (year % 100 != 0 || year % 400 == 0)

theorem isLeap_iff (year : Int) :
    isLeap year = true ↔ year % 4 = 0 ∧ (year % 100 ≠ 0 ∨ year % 400 = 0) := by
  simp [isLeap]

/-- The lengths of the months of a year. -/
def monthLengths (leap : Bool) : List Int :=
  [31, if leap then 29 else 28, 31, 30, 31, 30, 31, 31, 30, 31, 30, 31]

/-- The first day of a year. -/
def yearStart (year : Int) : Int :=
  365 * (year - 1970) + ((year - 1) / 4 - 492) - ((year - 1) / 100 - 19) + ((year - 1) / 400 - 4)

/-- Months are counted from January of the year 0; the first day of a month. -/
def monthStart (month : Int) : Int :=
  yearStart (month / 12) + ((monthLengths (isLeap (month / 12))).take (month % 12).toNat).sum

/-- The length of a month. -/
def monthLength (month : Int) : Int :=
  (monthLengths (isLeap (month / 12))).getD (month % 12).toNat 0

/-- The day of a date; months from 13 on and days after the last one are those of later
months. -/
def dayNumber (year month day : Int) : Int := monthStart (12 * year + (month - 1)) + (day - 1)

/-- A date of the calendar. -/
structure IsDate (year month day : Int) : Prop where
  month_pos : 1 ≤ month
  month_le : month ≤ 12
  day_pos : 1 ≤ day
  day_le : day ≤ monthLength (12 * year + (month - 1))

/-! ### Years and months -/

theorem yearStart_succ (year : Int) :
    yearStart (year + 1) = yearStart year + 365 + if isLeap year then 1 else 0 := by
  have leap := isLeap_iff year
  unfold yearStart
  split
  next isTrue =>
    have parts := leap.mp isTrue
    omega
  next isFalse =>
    have parts := mt leap.mpr isFalse
    omega

theorem yearStart_strictMono : StrictMono yearStart := by
  apply strictMono_int_of_lt_succ
  intro year
  rw [yearStart_succ]
  split <;> omega

/-- A month is one of twelve. -/
theorem month_split (month : Int) : ∃ year : Int, ∃ index : Nat, index < 12 ∧
    month = 12 * year + index ∧ month / 12 = year ∧ (month % 12).toNat = index := by
  refine ⟨month / 12, (month % 12).toNat, ?_, ?_, rfl, rfl⟩ <;> omega

theorem monthStart_of {year : Int} {index : Nat} (isIndex : index < 12) :
    monthStart (12 * year + index) =
      yearStart year + ((monthLengths (isLeap year)).take index).sum := by
  have quotient : (12 * year + index) / 12 = year := by omega
  have remainder : ((12 * year + index) % 12).toNat = index := by omega
  rw [monthStart, quotient, remainder]

theorem monthLength_of {year : Int} {index : Nat} (isIndex : index < 12) :
    monthLength (12 * year + index) = (monthLengths (isLeap year)).getD index 0 := by
  have quotient : (12 * year + index) / 12 = year := by omega
  have remainder : ((12 * year + index) % 12).toNat = index := by omega
  rw [monthLength, quotient, remainder]

/-- The months of both kinds of years, one by one. -/
theorem monthLengths_table : ∀ leap : Bool, ∀ index : Fin 12,
    (28 ≤ (monthLengths leap).getD index 0 ∧ (monthLengths leap).getD index 0 ≤ 31) ∧
      ((monthLengths leap).take (index + 1)).sum =
        ((monthLengths leap).take index).sum + (monthLengths leap).getD index 0 := by
  decide

theorem monthLength_bounds (month : Int) : 28 ≤ monthLength month ∧ monthLength month ≤ 31 := by
  obtain ⟨year, index, isIndex, rfl, _⟩ := month_split month
  rw [monthLength_of isIndex]
  exact (monthLengths_table (isLeap year) ⟨index, isIndex⟩).1

theorem monthStart_succ (month : Int) :
    monthStart (month + 1) = monthStart month + monthLength month := by
  obtain ⟨year, index, isIndex, rfl, _⟩ := month_split month
  rw [monthStart_of isIndex, monthLength_of isIndex]
  by_cases isLast : index = 11
  · subst isLast
    have next : 12 * year + ((11 : Nat) : Int) + 1 = 12 * (year + 1) + ((0 : Nat) : Int) := by omega
    rw [next, monthStart_of (by decide), yearStart_succ]
    cases isLeap year <;> simp [monthLengths] <;> omega
  · have next : 12 * year + (index : Int) + 1 = 12 * year + ((index + 1 : Nat) : Int) := by omega
    rw [next, monthStart_of (by omega), add_assoc]
    congr 1
    exact (monthLengths_table (isLeap year) ⟨index, isIndex⟩).2

theorem monthStart_strictMono : StrictMono monthStart := by
  apply strictMono_int_of_lt_succ
  intro month
  have bounds := monthLength_bounds month
  rw [monthStart_succ]
  omega

theorem monthStart_year (year : Int) : monthStart (12 * year) = yearStart year := by
  have start := @monthStart_of year 0 (by decide)
  simpa using start

/-! ### Dates -/

/-- A day of a month lies between the first days of the month and of the next one. -/
theorem IsDate.within {year month day : Int} (date : IsDate year month day) :
    monthStart (12 * year + (month - 1)) ≤ dayNumber year month day ∧
      dayNumber year month day < monthStart (12 * year + month) := by
  have next := monthStart_succ (12 * year + (month - 1))
  have same : 12 * year + (month - 1) + 1 = 12 * year + month := by omega
  have first := date.day_pos
  have last := date.day_le
  rw [same] at next
  unfold dayNumber
  omega

/-- A day of a year lies between the first days of the year and of the next one. -/
theorem IsDate.inYear {year month day : Int} (date : IsDate year month day) :
    yearStart year ≤ dayNumber year month day ∧
      dayNumber year month day < yearStart (year + 1) := by
  obtain ⟨notBefore, before⟩ := date.within
  have first := date.month_pos
  have last := date.month_le
  rw [← monthStart_year, ← monthStart_year]
  constructor
  · apply le_trans _ notBefore
    apply monthStart_strictMono.monotone
    omega
  · apply lt_of_lt_of_le before
    apply monthStart_strictMono.monotone
    omega

/-- A day between the first days of a month and of the next one is of that month. -/
theorem IsDate.sameMonth {year month day : Int} (date : IsDate year month day) {month' : Int}
    (from_first : monthStart month' ≤ dayNumber year month day)
    (before_next : dayNumber year month day < monthStart (month' + 1)) :
    12 * year + (month - 1) = month' := by
  obtain ⟨first, next⟩ := date.within
  have notLater : ¬12 * year + (month - 1) < month' := by
    intro earlier
    have le : 12 * year + month ≤ month' := by omega
    have := monthStart_strictMono.monotone le
    omega
  have notEarlier : ¬month' < 12 * year + (month - 1) := by
    intro later
    have le : month' + 1 ≤ 12 * year + (month - 1) := by omega
    have := monthStart_strictMono.monotone le
    omega
  omega

/-- A day has one date. -/
theorem IsDate.unique {year month day year' month' day' : Int} (date : IsDate year month day)
    (date' : IsDate year' month' day')
    (same : dayNumber year month day = dayNumber year' month' day') :
    year = year' ∧ month = month' ∧ day = day' := by
  have next : 12 * year' + (month' - 1) + 1 = 12 * year' + month' := by omega
  have sameMonth : 12 * year + (month - 1) = 12 * year' + (month' - 1) := by
    apply date.sameMonth
    · rw [same]
      exact date'.within.1
    · rw [next, same]
      exact date'.within.2
  have first := date.month_pos
  have last := date.month_le
  have first' := date'.month_pos
  have last' := date'.month_le
  have sameYear : year = year' := by omega
  have sameIndex : month = month' := by omega
  refine ⟨sameYear, sameIndex, ?_⟩
  unfold dayNumber at same
  rw [sameMonth] at same
  omega

/-! ### Leap years -/

/-- Of eight years one is a leap year. -/
theorem exists_leap (year : Int) : ∃ leap, year ≤ leap ∧ leap < year + 8 ∧ isLeap leap = true := by
  cases isFirst : isLeap ((year + 3) / 4 * 4) with
  | true => exact ⟨(year + 3) / 4 * 4, by omega, by omega, isFirst⟩
  | false =>
      have notFirst := mt (isLeap_iff ((year + 3) / 4 * 4)).mpr (by simp [isFirst])
      refine ⟨(year + 3) / 4 * 4 + 4, by omega, by omega, ?_⟩
      rw [isLeap_iff]
      omega

/-- The months of a leap year are as long as those of any year, at least. -/
theorem monthLength_le_leap {leap month : Int} (isTrue : isLeap leap = true) (year : Int)
    (first : 1 ≤ month) (last : month ≤ 12) :
    monthLength (12 * year + (month - 1)) ≤ monthLength (12 * leap + (month - 1)) := by
  have table : ∀ any : Bool, ∀ index : Fin 12,
      (monthLengths any).getD index 0 ≤ (monthLengths true).getD index 0 := by decide
  obtain ⟨index, same⟩ : ∃ index : Nat, month - 1 = index := ⟨(month - 1).toNat, by omega⟩
  have isIndex : index < 12 := by omega
  rw [same, monthLength_of isIndex, monthLength_of isIndex, isTrue]
  exact table (isLeap year) ⟨index, isIndex⟩

/-! ### The date of a day -/

/-- Years are 146097 / 400 days long on the whole. -/
theorem yearStart_bounds (year : Int) :
    146097 * (year - 1970) - 506 ≤ 400 * yearStart year ∧
      400 * yearStart year ≤ 146097 * (year - 1970) + 589 := by
  unfold yearStart
  omega

/-- The year of a day. -/
def yearOf (day : Int) : Int :=
  let guess := 1970 + 400 * day / 146097
  if day < yearStart guess then guess - 1
  else if yearStart (guess + 1) ≤ day then guess + 1
  else guess

theorem yearOf_spec (day : Int) :
    yearStart (yearOf day) ≤ day ∧ day < yearStart (yearOf day + 1) := by
  unfold yearOf
  simp only
  generalize isGuess : 1970 + 400 * day / 146097 = guess
  have before := yearStart_bounds (guess - 1)
  have after := yearStart_bounds (guess + 1 + 1)
  split
  next early =>
    have same : guess - 1 + 1 = guess := by omega
    rw [same]
    omega
  next notEarly =>
    split
    · omega
    · omega

/-- The index of the month that a day of the year is in, and the days of it before. -/
def monthOf : List Int → Int → Nat × Int
  | [], day => (0, day)
  | length :: more, day =>
      if day < length then (0, day)
      else
        let (index, rest) := monthOf more (day - length)
        (index + 1, rest)

theorem monthOf_spec {lengths : List Int} {day : Int} (notNegative : 0 ≤ day)
    (inside : day < lengths.sum) : (monthOf lengths day).1 < lengths.length ∧
      (lengths.take (monthOf lengths day).1).sum + (monthOf lengths day).2 = day ∧
      0 ≤ (monthOf lengths day).2 ∧
      (monthOf lengths day).2 < lengths.getD (monthOf lengths day).1 0 := by
  induction lengths generalizing day with
  | nil =>
      rw [List.sum_nil] at inside
      omega
  | cons length more ih =>
      rw [List.sum_cons] at inside
      rw [monthOf]
      split
      next here => simpa using ⟨notNegative, here⟩
      next later =>
        obtain ⟨index, sum, notBefore, short⟩ :=
          @ih (day - length) (by omega) (by omega)
        simp only [List.length_cons, List.take_succ_cons, List.sum_cons, List.getD_cons_succ]
        refine ⟨by omega, by omega, notBefore, short⟩

/-- Year, month and day. -/
def civil (day : Int) : Int × Int × Int :=
  let year := yearOf day
  let (index, rest) := monthOf (monthLengths (isLeap year)) (day - yearStart year)
  (year, index + 1, rest + 1)

/-- Every day has a date. -/
theorem civil_isDate (day : Int) :
    IsDate (civil day).1 (civil day).2.1 (civil day).2.2 ∧
      dayNumber (civil day).1 (civil day).2.1 (civil day).2.2 = day := by
  obtain ⟨notBefore, before⟩ := yearOf_spec day
  rw [yearStart_succ] at before
  unfold civil
  generalize yearOf day = year at notBefore before
  have total : (monthLengths (isLeap year)).sum = 365 + if isLeap year then 1 else 0 := by
    cases isLeap year <;> rfl
  obtain ⟨isIndex, sum, rest, short⟩ :=
    @monthOf_spec (monthLengths (isLeap year)) (day - yearStart year) (by omega) (by omega)
  have count : (monthLengths (isLeap year)).length = 12 := rfl
  rw [count] at isIndex
  simp only
  generalize monthOf (monthLengths (isLeap year)) (day - yearStart year) = split at *
  have same : 12 * year + ((split.1 : Int) + 1 - 1) = 12 * year + split.1 := by omega
  refine ⟨⟨by omega, by omega, by omega, ?_⟩, ?_⟩
  · rw [same, monthLength_of isIndex]
    omega
  · rw [dayNumber, same, monthStart_of isIndex]
    omega

end Bunx.Lib.Gregorian
