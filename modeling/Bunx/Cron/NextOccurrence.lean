/-
Module: Bunx.Cron.NextOccurrence
Purpose: The next time a cron expression matches: the search that jumps over months, days
  and hours finds the least matching minute.
Trusted boundary: the two conversions between milliseconds and dates are those of the
  engine; they are assumed to be exact.
Main exports: UtcConversions, UtcConversions.Exact, CronExpression.next, Matches,
  next_occurrence
-/
import Bunx.Cron.CronParser
import Bunx.Lib.Gregorian
import Mathlib.Algebra.Order.Floor.Ring
import Mathlib.Data.Rat.Floor
import Mathlib.Order.Bounds.Defs

namespace Bunx.Cron

open Bunx.Lib Bunx.Lib.Gregorian

/-- A date and a time; Sunday is weekday 0. -/
structure GregorianDateTime where
  year : Int
  month : Int
  day : Int
  hour : Int
  minute : Int
  second : Int
  weekday : Int
deriving DecidableEq, Repr

/-- The conversions of the engine; the one to milliseconds may throw an `ε`. -/
structure UtcConversions (ε : Type) where
  msToGregorianDateTimeUtc : ℚ → GregorianDateTime
  gregorianDateTimeToMsUtc (year month day hour minute second millisecond : Int) : Except ε ℚ

variable {ε : Type}

namespace CronExpression

/-- Whether the day of a date matches. -/
def dayMatch (e : CronExpression) (dt : GregorianDateTime) : Bool :=
  let dayOk := bitSet e.days dt.day.toNat
  let weekdayOk := bitSet e.weekdays dt.weekday.toNat
  -- If both fields are restricted, either matching is enough.
  if !e.daysIsWildcard && !e.weekdaysIsWildcard then dayOk || weekdayOk
  else dayOk && weekdayOk

/-- The loop of `next`; `fuel` bounds its turns. -/
def nextLoop (utc : UtcConversions ε) (e : CronExpression) (startYear : Int) :
    Nat → GregorianDateTime → Option (Except ε (Option ℚ))
  | 0, _ => none
  | fuel + 1, dt =>
      if dt.year - startYear ≤ 8 then
        -- Normalize overflow and recompute the weekday.
        match utc.gregorianDateTimeToMsUtc dt.year dt.month dt.day dt.hour dt.minute dt.second 0 with
        | .error thrown => some (.error thrown)
        | .ok ms =>
            let dt := utc.msToGregorianDateTimeUtc ms
            if !bitSet e.months dt.month.toNat then
              nextLoop utc e startYear fuel
                { dt with month := dt.month + 1, day := 1, hour := 0, minute := 0 }
            else if !e.dayMatch dt then
              nextLoop utc e startYear fuel { dt with day := dt.day + 1, hour := 0, minute := 0 }
            else if !bitSet e.hours dt.hour.toNat then
              nextLoop utc e startYear fuel { dt with hour := dt.hour + 1, minute := 0 }
            else if !bitSet e.minutes dt.minute.toNat then
              nextLoop utc e startYear fuel { dt with minute := dt.minute + 1 }
            else
              match utc.gregorianDateTimeToMsUtc dt.year dt.month dt.day dt.hour dt.minute 0 0 with
              | .error thrown => some (.error thrown)
              | .ok ms => some (.ok (some ms))
      else some (.ok none)

def next (utc : UtcConversions ε) (fuel : Nat) (e : CronExpression) (fromMs : ℚ) :
    Option (Except ε (Option ℚ)) :=
  let dt := utc.msToGregorianDateTimeUtc fromMs
  nextLoop utc e dt.year fuel { dt with minute := dt.minute + 1, second := 0 }

end CronExpression

/-! ### Exact conversions -/

/-- Days, hours, minutes and seconds as one count of minutes or of milliseconds. -/
def minuteNumber (dt : GregorianDateTime) : Int :=
  (dayNumber dt.year dt.month dt.day * 24 + dt.hour) * 60 + dt.minute

/-- The weekday of a day; 1 January 1970 was a Thursday. -/
def weekdayOf (day : Int) : Int := (day + 4) % 7

/-- The fields are those of a minute, counted from 1970. -/
structure FieldsOf (count : Int) (dt : GregorianDateTime) : Prop where
  date : IsDate dt.year dt.month dt.day
  ofDay : dayNumber dt.year dt.month dt.day = count / 1440
  ofHour : dt.hour = count / 60 % 24
  ofMinute : dt.minute = count % 60
  ofWeekday : dt.weekday = weekdayOf (count / 1440)

/-- The conversions are those of the proleptic Gregorian calendar, and fields that overflow
are normalised. -/
structure UtcConversions.Exact (utc : UtcConversions ε) : Prop where
  toMs : ∀ year month day hour minute second millisecond,
    utc.gregorianDateTimeToMsUtc year month day hour minute second millisecond =
      .ok ((((dayNumber year month day * 24 + hour) * 60 + minute) * 60 + second) * 1000 +
        millisecond : Int)
  fields : ∀ ms, FieldsOf (⌊ms⌋ / 60000) (utc.msToGregorianDateTimeUtc ms)
  second : ∀ ms, (utc.msToGregorianDateTimeUtc ms).second = ⌊ms⌋ / 1000 % 60

theorem FieldsOf.minuteNumber {count : Int} {dt : GregorianDateTime} (fields : FieldsOf count dt) :
    minuteNumber dt = count := by
  have day := fields.ofDay
  have hour := fields.ofHour
  have minute := fields.ofMinute
  unfold Bunx.Cron.minuteNumber
  omega

/-- A day has one date, so its minutes have the same month, day and weekday. -/
theorem FieldsOf.sameDay {count count' : Int} {dt dt' : GregorianDateTime}
    (fields : FieldsOf count dt) (fields' : FieldsOf count' dt')
    (same : count / 1440 = count' / 1440) :
    dt.year = dt'.year ∧ dt.month = dt'.month ∧ dt.day = dt'.day ∧ dt.weekday = dt'.weekday := by
  have sameNumber := fields.ofDay.trans (same.trans fields'.ofDay.symm)
  obtain ⟨year, month, day⟩ := fields.date.unique fields'.date sameNumber
  refine ⟨year, month, day, ?_⟩
  rw [fields.ofWeekday, fields'.ofWeekday, same]

/-! ### What a minute has to match -/

/-- The day of the month or the weekday where neither field is `*`, else the one that is
not. -/
def MatchesDay (e : CronExpression) (dt : GregorianDateTime) : Prop :=
  match e.daysIsWildcard, e.weekdaysIsWildcard with
  | false, false => bitSet e.days dt.day.toNat = true ∨ bitSet e.weekdays dt.weekday.toNat = true
  | false, true => bitSet e.days dt.day.toNat = true
  | true, false => bitSet e.weekdays dt.weekday.toNat = true
  | true, true => True

/-- A minute matches when its month, hour and minute are in the sets and its day matches. -/
def Matches (e : CronExpression) (count : Int) : Prop :=
  ∃ dt, FieldsOf count dt ∧ bitSet e.months dt.month.toNat = true ∧ MatchesDay e dt ∧
    bitSet e.hours dt.hour.toNat = true ∧ bitSet e.minutes dt.minute.toNat = true

/-- The source's test of the day says the same, as a field that is `*` has all its bits. -/
theorem dayMatch_iff {e : CronExpression} (wildcards : Wildcards e) {count : Int}
    {dt : GregorianDateTime} (fields : FieldsOf count dt) :
    e.dayMatch dt = true ↔ MatchesDay e dt := by
  have first := fields.date.day_pos
  have last := fields.date.day_le
  have short := (monthLength_bounds (12 * dt.year + (dt.month - 1))).2
  have weekday := fields.ofWeekday
  unfold weekdayOf at weekday
  have anyDay (wild : e.daysIsWildcard = true) : bitSet e.days dt.day.toNat = true := by
    rw [wildcards.days wild]
    exact bitSet_allDays (by omega) (by omega)
  have anyWeekday (wild : e.weekdaysIsWildcard = true) :
      bitSet e.weekdays dt.weekday.toNat = true := by
    rw [wildcards.weekdays wild]
    exact bitSet_allWeekdays (by omega)
  unfold CronExpression.dayMatch MatchesDay
  cases wildDays : e.daysIsWildcard <;> cases wildWeekdays : e.weekdaysIsWildcard
  · simp
  · simp [anyWeekday wildWeekdays]
  · simp [anyDay wildDays]
  · simp [anyDay wildDays, anyWeekday wildWeekdays]

/-! ### The jumps skip no match -/

/-- No minute from one count on and before another one matches. -/
def Skips (e : CronExpression) (start stop : Int) : Prop :=
  ∀ count, start ≤ count → count < stop → ¬Matches e count

theorem Skips.trans {e : CronExpression} {a b c : Int} (first : Skips e a b) (second : Skips e b c) :
    Skips e a c := by
  intro count notBefore before
  by_cases early : count < b
  · exact first count notBefore early
  · exact second count (by omega) before

section Jumps

variable {e : CronExpression} {count : Int} {dt : GregorianDateTime} (fields : FieldsOf count dt)

include fields

/-- To the first minute of the next month. -/
theorem skips_month (noMonth : bitSet e.months dt.month.toNat = false) :
    count < minuteNumber { dt with month := dt.month + 1, day := 1, hour := 0, minute := 0 } ∧
    Skips e count
      (minuteNumber { dt with month := dt.month + 1, day := 1, hour := 0, minute := 0 }) := by
  obtain ⟨notBefore, before⟩ := fields.date.within
  have day := fields.ofDay
  have next : minuteNumber { dt with month := dt.month + 1, day := 1, hour := 0, minute := 0 } =
      monthStart (12 * dt.year + dt.month) * 1440 := by
    have month : dt.month + 1 - 1 = dt.month := by omega
    simp only [minuteNumber, dayNumber, month]
    omega
  rw [next]
  constructor
  · omega
  · rintro later from_count before_next ⟨dt', fields', month, _⟩
    have day' := fields'.ofDay
    have same : 12 * dt.year + (dt.month - 1) + 1 = 12 * dt.year + dt.month := by omega
    have sameMonth : 12 * dt'.year + (dt'.month - 1) = 12 * dt.year + (dt.month - 1) := by
      apply fields'.date.sameMonth
      · omega
      · rw [same]
        omega
    have date := fields.date
    have date' := fields'.date
    have isMonth : dt'.month = dt.month := by
      have := date.month_pos
      have := date.month_le
      have := date'.month_pos
      have := date'.month_le
      omega
    rw [isMonth, noMonth] at month
    cases month

/-- To the first minute of the next day. -/
theorem skips_day (noDay : ¬MatchesDay e dt) :
    count < minuteNumber { dt with day := dt.day + 1, hour := 0, minute := 0 } ∧
    Skips e count (minuteNumber { dt with day := dt.day + 1, hour := 0, minute := 0 }) := by
  have day := fields.ofDay
  have next : minuteNumber { dt with day := dt.day + 1, hour := 0, minute := 0 } =
      (count / 1440 + 1) * 1440 := by
    rw [← day]
    simp only [minuteNumber, dayNumber]
    omega
  rw [next]
  constructor
  · omega
  · rintro later from_count before_next ⟨dt', fields', _, matches', _⟩
    obtain ⟨_, _, isDay, isWeekday⟩ := fields'.sameDay fields (by omega)
    apply noDay
    unfold MatchesDay at matches' ⊢
    rwa [isDay, isWeekday] at matches'

/-- To the next full hour. -/
theorem skips_hour (noHour : bitSet e.hours dt.hour.toNat = false) :
    count < minuteNumber { dt with hour := dt.hour + 1, minute := 0 } ∧
    Skips e count (minuteNumber { dt with hour := dt.hour + 1, minute := 0 }) := by
  have day := fields.ofDay
  have hour := fields.ofHour
  have next : minuteNumber { dt with hour := dt.hour + 1, minute := 0 } =
      (count / 60 + 1) * 60 := by
    simp only [minuteNumber, day, hour]
    omega
  rw [next]
  constructor
  · omega
  · rintro later from_count before_next ⟨dt', fields', _, _, hour', _⟩
    have isHour : dt'.hour = dt.hour := by
      rw [fields'.ofHour, hour]
      omega
    rw [isHour, noHour] at hour'
    cases hour'

/-- To the next minute. -/
theorem skips_minute (noMinute : bitSet e.minutes dt.minute.toNat = false) :
    count < minuteNumber { dt with minute := dt.minute + 1 } ∧
    Skips e count (minuteNumber { dt with minute := dt.minute + 1 }) := by
  have here := fields.minuteNumber
  have next : minuteNumber { dt with minute := dt.minute + 1 } = count + 1 := by
    rw [← here]
    simp only [minuteNumber]
    omega
  rw [next]
  constructor
  · omega
  · rintro later from_count before_next ⟨dt', fields', _, _, _, minute'⟩
    have isMinute : dt'.minute = dt.minute := by
      rw [fields'.ofMinute, fields.ofMinute]
      omega
    rw [isMinute, noMinute] at minute'
    cases minute'

end Jumps

/-! ### The search -/

/-- The first minute of the ninth year after a year. -/
def stopCount (startYear : Int) : Int := yearStart (startYear + 9) * 1440

/-- What the search may give: the least match from a count on, or nothing when there is none
before the ninth year. -/
def Searched (e : CronExpression) (start startYear : Int) : Option ℚ → Prop
  | some t => ∃ count : Int, t = (count * 60000 : Int) ∧ start ≤ count ∧ Matches e count ∧
      Skips e start count
  | none => Skips e start (stopCount startYear)

/-- Where the loop is: no match was skipped, and enough turns are left. -/
structure Searching (e : CronExpression) (start startYear : Int) (fuel : Nat)
    (dt : GregorianDateTime) : Prop where
  second : dt.second = 0
  year : yearStart dt.year * 1440 ≤ minuteNumber dt
  notBefore : start ≤ minuteNumber dt
  skips : Skips e start (minuteNumber dt)
  enough : startYear + 9 ≤ dt.year ∧ 1 ≤ fuel ∨
    2 ≤ fuel ∧ stopCount startYear + 2 ≤ minuteNumber dt + fuel

/-- A jump from a normalised date. -/
theorem Searching.jump {e : CronExpression} {start startYear count : Int} {fuel : Nat}
    {dt dt' : GregorianDateTime} (notBefore : start ≤ count) (skips : Skips e start count)
    (enough : 2 ≤ fuel + 1 ∧ stopCount startYear + 2 ≤ count + (fuel + 1 : Nat))
    (fields : FieldsOf count dt) (sameYear : dt'.year = dt.year) (second : dt'.second = 0)
    (jump : count < minuteNumber dt' ∧ Skips e count (minuteNumber dt')) :
    Searching e start startYear fuel dt' where
  second := second
  year := by
    have first := fields.date.inYear.1
    have day := fields.ofDay
    rw [sameYear]
    omega
  notBefore := by omega
  skips := skips.trans jump.2
  enough := by
    rw [sameYear]
    by_cases late : startYear + 9 ≤ dt.year
    · exact .inl ⟨late, by omega⟩
    · have next := fields.date.inYear.2
      have day := fields.ofDay
      have le : yearStart (dt.year + 1) ≤ yearStart (startYear + 9) :=
        yearStart_strictMono.monotone (by omega)
      unfold stopCount at enough ⊢
      omega

/-- A date and a time without seconds are normalised to the fields of the minute. -/
theorem UtcConversions.Exact.normalised {utc : UtcConversions ε} (exact : utc.Exact)
    {dt : GregorianDateTime} (second : dt.second = 0) : ∃ ms,
    utc.gregorianDateTimeToMsUtc dt.year dt.month dt.day dt.hour dt.minute dt.second 0 = .ok ms ∧
      FieldsOf (minuteNumber dt) (utc.msToGregorianDateTimeUtc ms) ∧
      (utc.msToGregorianDateTimeUtc ms).second = 0 := by
  refine ⟨_, exact.toMs .., ?_⟩
  have whole : (((dayNumber dt.year dt.month dt.day * 24 + dt.hour) * 60 + dt.minute) * 60 +
      dt.second) * 1000 + 0 = minuteNumber dt * 60000 := by
    unfold minuteNumber
    omega
  rw [whole]
  have fields := exact.fields ((minuteNumber dt * 60000 : Int) : ℚ)
  have seconds := exact.second ((minuteNumber dt * 60000 : Int) : ℚ)
  rw [Int.floor_intCast] at fields seconds
  have minutes : minuteNumber dt * 60000 / 60000 = minuteNumber dt := by omega
  rw [minutes] at fields
  exact ⟨fields, by omega⟩

/-- The loop ends and has found what there is. -/
theorem nextLoop_searched {e : CronExpression} (wildcards : Wildcards e) {utc : UtcConversions ε}
    (exact : utc.Exact) {start startYear : Int} {fuel : Nat} {dt : GregorianDateTime}
    (searching : Searching e start startYear fuel dt) :
    ∃ result, e.nextLoop utc startYear fuel dt = some (.ok result) ∧
      Searched e start startYear result := by
  induction fuel generalizing dt with
  | zero =>
      have enough := searching.enough
      omega
  | succ fuel ih =>
      unfold CronExpression.nextLoop
      by_cases inTime : dt.year - startYear ≤ 8
      · rw [if_pos inTime]
        obtain ⟨ms, isMs, fields, second⟩ := exact.normalised searching.second
        have enough : 2 ≤ fuel + 1 ∧
            stopCount startYear + 2 ≤ minuteNumber dt + (fuel + 1 : Nat) := by
          rcases searching.enough with late | enough
          · omega
          · exact enough
        rw [isMs]
        simp only
        generalize utc.msToGregorianDateTimeUtc ms = normal at fields second
        have jump := @Searching.jump e start startYear (minuteNumber dt) fuel normal
        cases month : bitSet e.months normal.month.toNat with
        | false =>
            simp only [Bool.not_false, if_true]
            apply ih
            exact jump searching.notBefore searching.skips enough fields rfl second
              (skips_month fields month)
        | true =>
            simp only [Bool.not_true, Bool.false_eq_true, if_false]
            have dayMatch := dayMatch_iff wildcards fields
            cases day : e.dayMatch normal with
            | false =>
                rw [day] at dayMatch
                simp only [Bool.not_false, if_true]
                apply ih
                exact jump searching.notBefore searching.skips enough fields rfl second
                  (skips_day fields (by simpa using dayMatch))
            | true =>
                simp only [Bool.not_true, Bool.false_eq_true, if_false]
                cases hour : bitSet e.hours normal.hour.toNat with
                | false =>
                    simp only [Bool.not_false, if_true]
                    apply ih
                    exact jump searching.notBefore searching.skips enough fields rfl second
                      (skips_hour fields hour)
                | true =>
                    simp only [Bool.not_true, Bool.false_eq_true, if_false]
                    cases minute : bitSet e.minutes normal.minute.toNat with
                    | false =>
                        simp only [Bool.not_false, if_true]
                        apply ih
                        exact jump searching.notBefore searching.skips enough fields rfl second
                          (skips_minute fields minute)
                    | true =>
                        simp only [Bool.not_true, Bool.false_eq_true, if_false]
                        rw [exact.toMs]
                        refine ⟨_, rfl, minuteNumber dt, ?_, searching.notBefore,
                          ⟨normal, fields, month, dayMatch.mp day, hour, minute⟩,
                          searching.skips⟩
                        congr 1
                        rw [← fields.minuteNumber]
                        unfold minuteNumber
                        omega
      · rw [if_neg inTime]
        refine ⟨none, rfl, ?_⟩
        intro count notBefore before
        apply searching.skips count notBefore
        have le : yearStart (startYear + 9) ≤ yearStart dt.year :=
          yearStart_strictMono.monotone (by omega)
        have year := searching.year
        unfold stopCount at before
        omega

/-! ### Eight years are enough -/

/-- What matches on some day matches on any day of the same month whose day and weekday do. -/
theorem Matches.onDay {e : CronExpression} {count : Int} {dt : GregorianDateTime}
    (fields : FieldsOf count dt) (month : bitSet e.months dt.month.toNat = true)
    (hour : bitSet e.hours dt.hour.toNat = true)
    (minute : bitSet e.minutes dt.minute.toNat = true) {year day : Int}
    (date : IsDate year dt.month day)
    (matches_day : MatchesDay e
      { dt with day, weekday := weekdayOf (dayNumber year dt.month day) }) :
    ∃ count', yearStart year * 1440 ≤ count' ∧ count' < yearStart (year + 1) * 1440 ∧
      Matches e count' := by
  have inYear := date.inYear
  have isHour := fields.ofHour
  have isMinute := fields.ofMinute
  have sameDay : ((dayNumber year dt.month day * 24 + dt.hour) * 60 + dt.minute) / 1440 =
      dayNumber year dt.month day := by omega
  refine ⟨(dayNumber year dt.month day * 24 + dt.hour) * 60 + dt.minute, by omega, by omega,
    { dt with year, day, weekday := weekdayOf (dayNumber year dt.month day) },
    ⟨date, sameDay.symm, ?_, ?_, ?_⟩, month, matches_day, hour, minute⟩
  · show dt.hour = _
    omega
  · show dt.minute = _
    omega
  · rw [sameDay]

/-- In each month there is a day with a given weekday among the first seven. -/
theorem exists_weekday (month : Int) {weekday : Int} (notNegative : 0 ≤ weekday)
    (small : weekday < 7) :
    ∃ day, 1 ≤ day ∧ day ≤ 7 ∧ weekdayOf (monthStart month + (day - 1)) = weekday := by
  unfold weekdayOf
  refine ⟨1 + (weekday - 4 - monthStart month) % 7, ?_, ?_, ?_⟩ <;> omega

/-- An expression that matches at all matches within any eight years. -/
theorem matches_within {e : CronExpression} {count : Int} (isMatch : Matches e count)
    (year : Int) : ∃ count', yearStart year * 1440 ≤ count' ∧
      count' < yearStart (year + 8) * 1440 ∧ Matches e count' := by
  obtain ⟨leap, from_year, before, isTrue⟩ := exists_leap year
  obtain ⟨dt, fields, month, matches_day, hour, minute⟩ := isMatch
  have first := fields.date.month_pos
  have last := fields.date.month_le
  have weekday := fields.ofWeekday
  have longer := monthLength_le_leap isTrue dt.year first last
  have sameDay : IsDate leap dt.month dt.day :=
    ⟨first, last, fields.date.day_pos, fields.date.day_le.trans longer⟩
  have found : ∃ day, IsDate leap dt.month day ∧ MatchesDay e
      { dt with day, weekday := weekdayOf (dayNumber leap dt.month day) } := by
    have byWeekday (isSet : bitSet e.weekdays dt.weekday.toNat = true) :
        ∃ day, IsDate leap dt.month day ∧
          bitSet e.weekdays (weekdayOf (dayNumber leap dt.month day)).toNat = true := by
      unfold weekdayOf at weekday
      have isWeekday : 0 ≤ dt.weekday ∧ dt.weekday < 7 := by omega
      obtain ⟨day, notBefore, short, isWeekday⟩ :=
        exists_weekday (12 * leap + (dt.month - 1)) isWeekday.1 isWeekday.2
      have bounds := monthLength_bounds (12 * leap + (dt.month - 1))
      refine ⟨day, ⟨first, last, notBefore, by omega⟩, ?_⟩
      rw [dayNumber, isWeekday]
      exact isSet
    unfold MatchesDay at matches_day ⊢
    cases wildDays : e.daysIsWildcard <;> cases wildWeekdays : e.weekdaysIsWildcard <;>
      simp only [wildDays, wildWeekdays] at matches_day ⊢
    · rcases matches_day with isSet | isSet
      · exact ⟨dt.day, sameDay, .inl isSet⟩
      · obtain ⟨day, date, isSet⟩ := byWeekday isSet
        exact ⟨day, date, .inr isSet⟩
    · exact ⟨dt.day, sameDay, matches_day⟩
    · exact byWeekday matches_day
    · exact ⟨dt.day, sameDay, trivial⟩
  obtain ⟨day, date, matches_leap⟩ := found
  obtain ⟨count', notBefore, inYear, isMatch'⟩ :=
    Matches.onDay fields month hour minute date matches_leap
  have le : yearStart year ≤ yearStart leap := yearStart_strictMono.monotone from_year
  have le' : yearStart (leap + 1) ≤ yearStart (year + 8) :=
    yearStart_strictMono.monotone (by omega)
  exact ⟨count', by omega, by omega, isMatch'⟩

/-! ### The next occurrence -/

/-- The loop takes no more turns than nine years have minutes, and two. -/
def maxTurns : Nat := 9 * 366 * 1440 + 2

/-- For every expression that `parse` accepts and every time `next` ends; it gives the least
whole minute after the time that matches, and nothing only where no minute ever matches. -/
theorem next_occurrence {input : Bytes} {e : CronExpression} (parsed : parse input = .ok e)
    {utc : UtcConversions ε} (exact : utc.Exact) (fromMs : ℚ) {fuel : Nat}
    (enough : maxTurns ≤ fuel) :
    ∃ result, e.next utc fuel fromMs = some (.ok result) ∧
      (∀ t, result = some t → IsLeast
        {t : ℚ | ∃ count : Int, t = (count * 60000 : Int) ∧ fromMs < t ∧ Matches e count} t) ∧
      (result = none → ∀ count, ¬Matches e count) := by
  have wildcards := parse_wildcards parsed
  have fields := exact.fields fromMs
  have now := fields.minuteNumber
  have inYear := fields.date.inYear
  have day := fields.ofDay
  unfold CronExpression.next
  simp only
  generalize utc.msToGregorianDateTimeUtc fromMs = dt at fields now inYear day
  have later : minuteNumber { dt with minute := dt.minute + 1, second := 0 } =
      ⌊fromMs⌋ / 60000 + 1 := by
    rw [← now]
    simp only [minuteNumber]
    omega
  have nineYears : yearStart (dt.year + 9) ≤ yearStart dt.year + 9 * 366 := by
    unfold yearStart
    omega
  have searching : Searching e (⌊fromMs⌋ / 60000 + 1) dt.year fuel
      { dt with minute := dt.minute + 1, second := 0 } := by
    refine ⟨rfl, ?_, ?_, ?_, .inr ?_⟩
    · rw [later]
      show yearStart dt.year * 1440 ≤ _
      omega
    · rw [later]
    · rw [later]
      intro count notBefore before
      omega
    · rw [later, stopCount]
      unfold maxTurns at enough
      omega
  have after (count : Int) :
      fromMs < ((count * 60000 : Int) : ℚ) ↔ ⌊fromMs⌋ / 60000 + 1 ≤ count := by
    rw [← Int.floor_lt]
    omega
  obtain ⟨result, ran, searched⟩ := nextLoop_searched wildcards exact searching
  refine ⟨result, ran, ?_, ?_⟩
  · rintro t rfl
    obtain ⟨count, isCount, notBefore, isMatch, skips⟩ := searched
    refine ⟨⟨count, isCount, ?_, isMatch⟩, ?_⟩
    · rw [isCount]
      exact (after count).mpr notBefore
    · rintro t' ⟨count', isCount', isAfter, isMatch'⟩
      rw [isCount'] at isAfter
      have notSkipped : ¬count' < count := fun early =>
        skips count' ((after count').mp isAfter) early isMatch'
      rw [isCount, isCount']
      exact_mod_cast (by omega : count * 60000 ≤ count' * 60000)
  · rintro rfl count isMatch
    obtain ⟨count', from_next, before, isMatch'⟩ := matches_within isMatch (dt.year + 1)
    have same : dt.year + 1 + 8 = dt.year + 9 := by omega
    rw [same] at before
    exact searched count' (by omega) before isMatch'

/-! ### The calendar -/

/-- Conversions that are exact. -/
def gregorianUtc : UtcConversions Empty where
  msToGregorianDateTimeUtc ms :=
    let count := ⌊ms⌋ / 60000
    let date := civil (count / 1440)
    { year := date.1, month := date.2.1, day := date.2.2, hour := count / 60 % 24
      minute := count % 60, second := ⌊ms⌋ / 1000 % 60, weekday := weekdayOf (count / 1440) }
  gregorianDateTimeToMsUtc year month day hour minute second millisecond :=
    .ok ((((dayNumber year month day * 24 + hour) * 60 + minute) * 60 + second) * 1000 +
      millisecond : Int)

theorem gregorianUtc_exact : gregorianUtc.Exact where
  toMs := fun _ _ _ _ _ _ _ => rfl
  fields := by
    intro ms
    obtain ⟨date, number⟩ := civil_isDate (⌊ms⌋ / 60000 / 1440)
    exact ⟨date, number, rfl, rfl, rfl⟩
  second := fun _ => rfl

/-- Half past twelve on 29 February. -/
def sampleExpression : CronExpression :=
  { minutes := 1#64 <<< 30, hours := 1#32 <<< 12, days := 1#32 <<< 29, months := 1#16 <<< 2
    weekdays := allWeekdays, daysIsWildcard := false, weekdaysIsWildcard := true }

theorem sampleExpression_parsed : parse (ascii " 30 12\t29 feb *") = .ok sampleExpression := rfl

theorem next_occurrence_sample :
    ∃ result, sampleExpression.next gregorianUtc maxTurns 0 = some (.ok result) ∧
      (∀ t, result = some t → IsLeast {t : ℚ | ∃ count : Int,
        t = (count * 60000 : Int) ∧ 0 < t ∧ Matches sampleExpression count} t) ∧
      (result = none → ∀ count, ¬Matches sampleExpression count) :=
  next_occurrence sampleExpression_parsed gregorianUtc_exact 0 (Nat.le_refl _)

end Bunx.Cron
