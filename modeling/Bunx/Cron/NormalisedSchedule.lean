/-
Module: Bunx.Cron.NormalisedSchedule
Purpose: A cron expression written as numbers and parsed again: when it keeps its schedule.
Trusted boundary: the conversions between milliseconds and dates, as in
  Bunx.Cron.NextOccurrence
Main exports: CronExpression.KeepsSchedule, next_of_matches, formatNumeric_schedule
-/
import Bunx.Cron.NextOccurrence
import Bunx.Cron.FormatNumeric

namespace Bunx.Cron

open Bunx.Lib Bunx.Lib.Gregorian

/-- What decides whether the written expression has the schedule of the one it was written from.
With two restricted fields either matching is enough, so a field that is restricted but full
matches every day; written as `*` it leaves the choice to the other field. -/
def CronExpression.KeepsSchedule (e : CronExpression) : Prop :=
  e.daysIsWildcard = false → e.weekdaysIsWildcard = false →
    (e.days = allDays → e.weekdays = allWeekdays) ∧
    (e.weekdays = allWeekdays → ∀ year month day, IsDate year month day →
      bitSet e.months month.toNat = true → bitSet e.days day.toNat = true)

/-! ### Schedules that are kept -/

section Days

variable {e : CronExpression} {count : Int} {dt : GregorianDateTime}

theorem matchesDay_normalised (wildcards : Wildcards e) (kept : e.KeepsSchedule)
    (fields : FieldsOf count dt) (month : bitSet e.months dt.month.toNat = true) :
    MatchesDay e.normalised dt ↔ MatchesDay e dt := by
  have first := fields.date.day_pos
  have last := fields.date.day_le
  have short := (monthLength_bounds (12 * dt.year + (dt.month - 1))).2
  have weekday := fields.ofWeekday
  unfold weekdayOf at weekday
  have anyDay (full : e.days = allDays) : bitSet e.days dt.day.toNat = true := by
    rw [full]
    exact bitSet_allDays (by omega) (by omega)
  have anyWeekday (full : e.weekdays = allWeekdays) :
      bitSet e.weekdays dt.weekday.toNat = true := by
    rw [full]
    exact bitSet_allWeekdays (by omega)
  unfold MatchesDay CronExpression.normalised
  cases wildDays : e.daysIsWildcard with
  | true =>
      have full := wildcards.days wildDays
      cases wildWeekdays : e.weekdaysIsWildcard with
      | true => simp only [full, wildcards.weekdays wildWeekdays, decide_true]
      | false =>
          by_cases fullWeekdays : e.weekdays = allWeekdays
          · simp only [decide_eq_true full, decide_eq_true fullWeekdays, anyWeekday fullWeekdays]
          · simp only [decide_eq_true full, decide_eq_false fullWeekdays]
  | false =>
      cases wildWeekdays : e.weekdaysIsWildcard with
      | true =>
          have full := wildcards.weekdays wildWeekdays
          by_cases fullDays : e.days = allDays
          · simp only [decide_eq_true full, decide_eq_true fullDays, anyDay fullDays]
          · simp only [decide_eq_true full, decide_eq_false fullDays]
      | false =>
          obtain ⟨ofDays, ofWeekdays⟩ := kept wildDays wildWeekdays
          by_cases fullDays : e.days = allDays
          · have fullWeekdays := ofDays fullDays
            simp only [decide_eq_true fullDays, decide_eq_true fullWeekdays, anyDay fullDays,
              true_or]
          · by_cases fullWeekdays : e.weekdays = allWeekdays
            · have isDay := ofWeekdays fullWeekdays _ _ _ fields.date month
              simp only [decide_eq_false fullDays, decide_eq_true fullWeekdays, isDay, true_or]
            · simp only [decide_eq_false fullDays, decide_eq_false fullWeekdays]

theorem matches_normalised (wildcards : Wildcards e) (kept : e.KeepsSchedule) :
    Matches e.normalised count ↔ Matches e count := by
  constructor
  · rintro ⟨dt, fields, month, isDay, rest⟩
    exact ⟨dt, fields, month, (matchesDay_normalised wildcards kept fields month).mp isDay, rest⟩
  · rintro ⟨dt, fields, month, isDay, rest⟩
    exact ⟨dt, fields, month, (matchesDay_normalised wildcards kept fields month).mpr isDay, rest⟩

end Days

/-! ### Schedules that are not -/

section Lost

variable {e : CronExpression} {year month day : Int}

/-- What matches a date at some minute. -/
theorem matchesDay_of_same {e' : CronExpression} (inRange : e.InRange)
    (same : ∀ count, Matches e' count ↔ Matches e count) (date : IsDate year month day)
    (monthSet : bitSet e.months month.toNat = true)
    (isDay : ∀ dt : GregorianDateTime, dt.day = day →
      dt.weekday = weekdayOf (dayNumber year month day) → MatchesDay e dt) :
    ∃ dt : GregorianDateTime, dt.day = day ∧ dt.weekday = weekdayOf (dayNumber year month day) ∧
      MatchesDay e' dt := by
  obtain ⟨hour, isHour⟩ := inRange.hours.nonempty
  obtain ⟨minute, isMinute⟩ := inRange.minutes.nonempty
  have hours := inRange.hours.inside hour isHour
  have minutes := inRange.minutes.inside minute isMinute
  rw [← bitSet_eq (by decide)] at isHour isMinute
  have sameDay : ((dayNumber year month day * 24 + hour) * 60 + minute) / 1440 =
      dayNumber year month day := by omega
  have fields : FieldsOf ((dayNumber year month day * 24 + hour) * 60 + minute)
      { year, month, day, hour, minute, second := 0
        weekday := weekdayOf (dayNumber year month day) } := by
    refine ⟨date, sameDay.symm, ?_, ?_, ?_⟩
    · show (hour : Int) = _
      omega
    · show (minute : Int) = _
      omega
    · rw [sameDay]
  have isMatch := (same _).mpr ⟨_, fields, monthSet, isDay _ rfl rfl, isHour, isMinute⟩
  obtain ⟨dt, fields', -, isDay', -, -⟩ := isMatch
  obtain ⟨-, -, sameDay, sameWeekday⟩ := fields'.sameDay fields rfl
  exact ⟨dt, sameDay, sameWeekday, isDay'⟩

theorem keepsSchedule_of_same (inRange : e.InRange)
    (same : ∀ count, Matches e.normalised count ↔ Matches e count) : e.KeepsSchedule := by
  intro notDays notWeekdays
  constructor
  · intro fullDays
    apply field_ext inRange.weekdays fieldBits_allWeekdays
    intro i _ upTo
    have isFull := @bitSet_allWeekdays i (by omega)
    rw [bitSet_eq (by decide)] at isFull
    rw [isFull]
    -- The first day of a month that falls on the weekday `i`.
    obtain ⟨index, isMonth⟩ := inRange.months.nonempty
    have monthRange := inRange.months.inside index isMonth
    rw [← bitSet_eq (by decide)] at isMonth
    obtain ⟨day, first, last, isWeekday⟩ := @exists_weekday (12 * 2000 + ((index : Int) - 1)) i
      (by omega) (by omega)
    have long := (monthLength_bounds (12 * 2000 + ((index : Int) - 1))).1
    have date : IsDate 2000 index day := ⟨by omega, by omega, first, by omega⟩
    obtain ⟨dt, -, onWeekday, isDay⟩ := matchesDay_of_same inRange same date isMonth (by
      intro dt onDay _
      unfold MatchesDay
      rw [notDays, notWeekdays]
      left
      rw [onDay, fullDays]
      exact bitSet_allDays (by omega) (by omega))
    by_cases fullWeekdays : e.weekdays = allWeekdays
    · rw [fullWeekdays]
      exact isFull
    · unfold MatchesDay CronExpression.normalised at isDay
      simp only [fullDays, fullWeekdays, decide_true, decide_false] at isDay
      rw [onWeekday, dayNumber, isWeekday, bitSet_eq (by decide)] at isDay
      exact isDay
  · intro fullWeekdays year month day date monthSet
    obtain ⟨dt, onDay, -, isDay⟩ := matchesDay_of_same inRange same date monthSet (by
      intro dt _ onWeekday
      unfold MatchesDay
      rw [notDays, notWeekdays]
      right
      rw [onWeekday, fullWeekdays]
      unfold weekdayOf
      exact bitSet_allWeekdays (by omega))
    by_cases fullDays : e.days = allDays
    · have first := date.day_pos
      have last := date.day_le
      have short := (monthLength_bounds (12 * year + (month - 1))).2
      rw [fullDays]
      exact bitSet_allDays (by omega) (by omega)
    · unfold MatchesDay CronExpression.normalised at isDay
      simp only [fullDays, fullWeekdays, decide_true, decide_false] at isDay
      rwa [onDay] at isDay

end Lost

/-! ### The next occurrence -/

/-- Expressions that match the same minutes have the same next one. -/
theorem next_of_matches {ε : Type} {input input' : Bytes} {e e' : CronExpression}
    (parsed : parse input = .ok e) (parsed' : parse input' = .ok e')
    (same : ∀ count, Matches e' count ↔ Matches e count) {utc : UtcConversions ε}
    (exact : utc.Exact) (fromMs : ℚ) {fuel : Nat} (enough : maxTurns ≤ fuel) :
    e'.next utc fuel fromMs = e.next utc fuel fromMs := by
  obtain ⟨result, ran, isLeast, isNone⟩ := next_occurrence parsed exact fromMs enough
  obtain ⟨result', ran', isLeast', isNone'⟩ := next_occurrence parsed' exact fromMs enough
  simp only [same] at isLeast' isNone'
  rw [ran, ran']
  cases result with
  | none =>
      cases result' with
      | none => rfl
      | some t' =>
          obtain ⟨⟨count, _, _, isMatch⟩, -⟩ := isLeast' t' rfl
          exact absurd isMatch (isNone rfl count)
  | some t =>
      have least := isLeast t rfl
      cases result' with
      | none =>
          obtain ⟨⟨count, _, _, isMatch⟩, -⟩ := least
          exact absurd isMatch (isNone' rfl count)
      | some t' => rw [(isLeast' t' rfl).unique least]

/-! ### Writing and reading back -/

/-- The text of a parsed expression fits and is read back as the same sets. -/
theorem formatNumeric_parsed {input : Bytes} {e : CronExpression} (parsed : parse input = .ok e) :
    e.formatNumeric = some e.text ∧ parse e.text = .ok e.normalised :=
  ⟨formatNumeric_text e, parse_text (parse_inRange parsed)⟩

/-- The text of a parsed expression fits and is accepted again; it has the same schedule exactly
where no field that was written out in full decides it. -/
theorem formatNumeric_schedule {ε : Type} {input : Bytes} {e : CronExpression}
    (parsed : parse input = .ok e) :
    (∃ text e', e.formatNumeric = some text ∧ parse text = .ok e' ∧
      (∀ count, Matches e' count ↔ Matches e count) ∧
      ∀ utc : UtcConversions ε, utc.Exact → ∀ fromMs fuel, maxTurns ≤ fuel →
        e'.next utc fuel fromMs = e.next utc fuel fromMs) ↔
      e.KeepsSchedule := by
  obtain ⟨isText, isRead⟩ := formatNumeric_parsed parsed
  constructor
  · rintro ⟨text, e', isText', isRead', same, -⟩
    cases isText.symm.trans isText'
    cases isRead.symm.trans isRead'
    exact keepsSchedule_of_same (parse_inRange parsed) same
  · intro kept
    have same (count : Int) : Matches e.normalised count ↔ Matches e count :=
      matches_normalised (parse_wildcards parsed) kept
    exact ⟨e.text, e.normalised, isText, isRead, same,
      fun utc exact fromMs fuel enough => next_of_matches parsed isRead same exact fromMs enough⟩

theorem formatNumeric_schedule_sample :
    ∃ text e', sampleExpression.formatNumeric = some text ∧ parse text = .ok e' ∧
      (∀ count, Matches e' count ↔ Matches sampleExpression count) ∧
      ∀ utc : UtcConversions Empty, utc.Exact → ∀ fromMs fuel, maxTurns ≤ fuel →
        e'.next utc fuel fromMs = sampleExpression.next utc fuel fromMs :=
  (formatNumeric_schedule sampleExpression_parsed).mpr fun _ notWeekdays => by cases notWeekdays

/-- Midnight of every day: each day of the month is named, and Monday. -/
def everyDay : CronExpression :=
  { minutes := 1, hours := 1, days := allDays, months := allMonths, weekdays := 1#8 <<< 1
    daysIsWildcard := false, weekdaysIsWildcard := false }

/-- 1 January 1970 was a Thursday, which is not left in `0 0 * * 1`. -/
theorem full_days_lose_thursday :
    ∃ e', parse (ascii "0 0 1-31 * 1") = .ok everyDay ∧
      everyDay.formatNumeric = some (ascii "0 0 * * 1") ∧ parse (ascii "0 0 * * 1") = .ok e' ∧
      Matches everyDay 0 ∧ ¬Matches e' 0 := by
  have fields : FieldsOf 0
      { year := 1970, month := 1, day := 1, hour := 0, minute := 0, second := 0, weekday := 4 } :=
    ⟨⟨by decide, by decide, by decide, by decide⟩, rfl, rfl, rfl, rfl⟩
  refine ⟨everyDay.normalised, rfl, by decide, rfl, ⟨_, fields, rfl, .inl rfl, rfl, rfl⟩, ?_⟩
  rintro ⟨dt, fields', -, isDay, -⟩
  have onThursday := (fields'.sameDay fields rfl).2.2.2
  have isMonday : bitSet everyDay.weekdays dt.weekday.toNat = true := isDay
  rw [onThursday] at isMonday
  exact absurd isMonday (by decide)

end Bunx.Cron
