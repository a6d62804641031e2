/-
Module: Bunx.Cron.CronParser
Purpose: Cron expressions: five fields or a nickname, parsed into sets of bits.
Trusted boundary: none
Main exports: CronExpression, CronError, parse, parseField, bitSet, parse_wildcards
-/
import Mathlib.Algebra.Ring.Int.Defs
import Mathlib.Algebra.Ring.Nat
import Mathlib.Data.List.SplitOn

namespace Bunx.Cron

abbrev Bytes := List UInt8

/-- The bytes of an ASCII text. -/
def ascii (text : String) : Bytes := text.toList.map fun c => UInt8.ofNat c.toNat

structure CronExpression where
  minutes : BitVec 64
  hours : BitVec 32
  days : BitVec 32
  months : BitVec 16
  /-- Sunday is bit 0. -/
  weekdays : BitVec 8
  daysIsWildcard : Bool
  weekdaysIsWildcard : Bool
deriving DecidableEq

inductive CronError where
  | InvalidField
  | InvalidStep
  | InvalidRange
  | InvalidNumber
  | TooManyFields
  | TooFewFields
deriving DecidableEq, Repr

/-! ### Texts -/

def trimLeft (s chars : Bytes) : Bytes := s.dropWhile chars.contains

def trimRight (s chars : Bytes) : Bytes := (s.reverse.dropWhile chars.contains).reverse

def trim (s chars : Bytes) : Bytes := trimRight (trimLeft s chars) chars

def toAsciiLowercase (c : UInt8) : UInt8 := if 65 ≤ c ∧ c ≤ 90 then c + 32 else c

def eqlCaseInsensitiveAscii (a b : Bytes) : Bool :=
  a.length == b.length && a.map toAsciiLowercase == b.map toAsciiLowercase

def inMapCaseInsensitive (key : Bytes) (map : List (String × Nat)) : Option Nat :=
  (map.find? fun entry => ascii entry.1 == key.map toAsciiLowercase).map Prod.snd

/-- The digits of a `u128`; single underscores between them are skipped. -/
def digitsLoop : Bytes → Nat → Option Nat
  | [], acc => some acc
  | c :: more, acc =>
      if c = 95 then digitsLoop more acc
      else if 48 ≤ c ∧ c ≤ 57 then
        let acc := acc * 10 + (c - 48).toNat
        if acc < 2 ^ 128 then digitsLoop more acc else none
      else none

def parseWithSign (digits : Bytes) : Option Nat :=
  if digits = [] ∨ digits.head? = some 95 ∨ digits.getLast? = some 95 then none
  else digitsLoop digits 0

/-- `parse_decimal::<u8>`. -/
def parseDecimal (s : Bytes) : Option Nat :=
  match s with
  | [] => none
  | first :: rest =>
      -- After a minus sign only zero is in the range of a `u8`.
      if first = 45 then (parseWithSign rest).filter (· == 0)
      else (parseWithSign (if first = 43 then rest else s)).filter (· ≤ 255)

/-! ### Fields -/

inductive NameKind where
  | none
  | weekday
  | month
deriving DecidableEq

def weekdayMap : List (String × Nat) :=
  [("sun", 0), ("mon", 1), ("tue", 2), ("wed", 3), ("thu", 4), ("fri", 5), ("sat", 6),
    ("sunday", 0), ("monday", 1), ("tuesday", 2), ("wednesday", 3), ("thursday", 4),
    ("friday", 5), ("saturday", 6)]

def monthMap : List (String × Nat) :=
  [("jan", 1), ("feb", 2), ("mar", 3), ("apr", 4), ("may", 5), ("jun", 6), ("jul", 7),
    ("aug", 8), ("sep", 9), ("oct", 10), ("nov", 11), ("dec", 12), ("january", 1),
    ("february", 2), ("march", 3), ("april", 4), ("june", 6), ("july", 7), ("august", 8),
    ("september", 9), ("october", 10), ("november", 11), ("december", 12)]

def namedValue (str : Bytes) : NameKind → Option Nat
  | .weekday => inMapCaseInsensitive str weekdayMap
  | .month => inMapCaseInsensitive str monthMap
  | .none => none

/-- A number or a name; every failure becomes `InvalidNumber`. -/
def parseValue (str : Bytes) (min max : Nat) (kind : NameKind) : Except CronError Nat :=
  match namedValue str kind with
  | some v => .ok v
  | none =>
      match parseDecimal str with
      | none => .error .InvalidNumber
      | some val => if val < min ∨ val > max then .error .InvalidNumber else .ok val

/-- Both ends of a range, where there is exactly one `-` and it is inside. -/
def splitRange (base : Bytes) : Option (Bytes × Bytes) :=
  match base.findIdx? (· == 45) with
  | none => none
  | some idx =>
      if idx = 0 ∨ idx = base.length - 1 then none
      else
        let rest := base.drop (idx + 1)
        if rest.contains 45 then none else some (base.take idx, rest)

/-- Set every `step`th bit; `turns` bounds the loop, which moves at least one bit on. -/
def setBits {w : Nat} (step rangeMax : Nat) : Nat → BitVec w → Nat → BitVec w
  | 0, result, _ => result
  | turns + 1, result, i =>
      if i ≤ rangeMax then
        let result := result ||| (1#w <<< i)
        if i + step > rangeMax then result else setBits step rangeMax turns result (i + step)
      else result

def parseStep : Option Bytes → Except CronError Nat
  | none => .ok 1
  | some s =>
      if s = [] then .error .InvalidStep
      else
        match parseDecimal s with
        | some v => if v ≤ 127 ∧ v ≠ 0 then .ok v else .error .InvalidStep
        | none => .error .InvalidStep

/-- The ends of the range of a part. -/
def parseBase (base : Bytes) (hasStep : Bool) (min max : Nat) (kind : NameKind) :
    Except CronError (Nat × Nat) :=
  if base = ascii "*" then .ok (min, max)
  else
    match splitRange base with
    | some (first, last) => do
        let lo ← parseValue first min max kind
        let hi ← parseValue last min max kind
        if lo > hi then .error .InvalidRange else .ok (lo, hi)
    | none => do
        let lo ← parseValue base min max kind
        .ok (lo, if hasStep then max else lo)

def parsePart {w : Nat} (min max : Nat) (kind : NameKind) (result : BitVec w) (part : Bytes) :
    Except CronError (BitVec w) :=
  if part = [] then .error .InvalidField
  else
    match part.splitOnP (· == 47) with
    | [] => .error .InvalidField
    | base :: more =>
        if 1 < more.length then .error .InvalidStep
        else do
          let step ← parseStep more.head?
          let (rangeMin, rangeMax) ← parseBase base more.head?.isSome min max kind
          .ok (setBits step rangeMax (rangeMax + 1 - rangeMin) result rangeMin)

/-- One field, such as `1,5-10,*/3`. -/
def parseField (w : Nat) (field : Bytes) (min max : Nat) (kind : NameKind) :
    Except CronError (BitVec w) :=
  if field = [] then .error .InvalidField
  else do
    let result ← (field.splitOnP (· == 44)).foldlM (parsePart min max kind) (0#w)
    -- Sunday as 7 is folded into bit 0 after the ranges were expanded.
    if kind = .weekday then .ok ((result ||| (result >>> 7)) &&& BitVec.ofNat w 127)
    else .ok result

def allHours : BitVec 32 := BitVec.ofNat 32 (2 ^ 24 - 1)
def allDays : BitVec 32 := BitVec.ofNat 32 (2 ^ 32 - 1) &&& ~~~1#32
def allMonths : BitVec 16 := BitVec.ofNat 16 (2 ^ 13 - 1) &&& ~~~1#16
def allWeekdays : BitVec 8 := BitVec.ofNat 8 (2 ^ 7 - 1)

def parseNickname (expr : Bytes) : Option CronExpression :=
  if eqlCaseInsensitiveAscii expr (ascii "@yearly") ||
      eqlCaseInsensitiveAscii expr (ascii "@annually") then
    some { minutes := 1, hours := 1, days := 1#32 <<< 1, months := 1#16 <<< 1
           weekdays := allWeekdays, daysIsWildcard := false, weekdaysIsWildcard := true }
  else if eqlCaseInsensitiveAscii expr (ascii "@monthly") then
    some { minutes := 1, hours := 1, days := 1#32 <<< 1, months := allMonths
           weekdays := allWeekdays, daysIsWildcard := false, weekdaysIsWildcard := true }
  else if eqlCaseInsensitiveAscii expr (ascii "@weekly") then
    some { minutes := 1, hours := 1, days := allDays, months := allMonths
           weekdays := 1, daysIsWildcard := true, weekdaysIsWildcard := false }
  else if eqlCaseInsensitiveAscii expr (ascii "@daily") ||
      eqlCaseInsensitiveAscii expr (ascii "@midnight") then
    some { minutes := 1, hours := 1, days := allDays, months := allMonths
           weekdays := allWeekdays, daysIsWildcard := true, weekdaysIsWildcard := true }
  else if eqlCaseInsensitiveAscii expr (ascii "@hourly") then
    some { minutes := 1, hours := allHours, days := allDays, months := allMonths
           weekdays := allWeekdays, daysIsWildcard := true, weekdaysIsWildcard := true }
  else none

def parse (input : Bytes) : Except CronError CronExpression :=
  let expr := trim input [32, 9]
  if expr.head? = some 64 then
    match parseNickname expr with
    | some e => .ok e
    | none => .error .InvalidField
  else
    match (expr.splitOnP fun b => b == 32 || b == 9).filter (· ≠ []) with
    | [minute, hour, day, month, weekday] => do
        let minutes ← parseField 64 minute 0 59 .none
        let hours ← parseField 32 hour 0 23 .none
        let days ← parseField 32 day 1 31 .none
        let months ← parseField 16 month 1 12 .month
        let weekdays ← parseField 8 weekday 0 7 .weekday
        .ok { minutes, hours, days, months, weekdays
              daysIsWildcard := day = ascii "*", weekdaysIsWildcard := weekday = ascii "*" }
    | fields => .error (if 5 < fields.length then .TooManyFields else .TooFewFields)

def bitSet {w : Nat} (set : BitVec w) (pos : Nat) : Bool := (set >>> pos) &&& 1#w != 0#w

/-! ### Wildcards -/

theorem parseField_days : parseField 32 (ascii "*") 1 31 .none = .ok allDays := rfl

theorem parseField_weekdays : parseField 8 (ascii "*") 0 7 .weekday = .ok allWeekdays := rfl

theorem bitSet_allDays {day : Nat} (first : 1 ≤ day) (last : day ≤ 31) :
    bitSet allDays day = true := by
  have table : ∀ d : Fin 32, 1 ≤ d.val → bitSet allDays d = true := by decide
  exact table ⟨day, by omega⟩ first

theorem bitSet_allWeekdays {weekday : Nat} (last : weekday < 7) :
    bitSet allWeekdays weekday = true := by
  have table : ∀ d : Fin 7, bitSet allWeekdays d = true := by decide
  exact table ⟨weekday, last⟩

/-- A field that is `*` has all its bits. -/
structure Wildcards (e : CronExpression) : Prop where
  days : e.daysIsWildcard = true → e.days = allDays
  weekdays : e.weekdaysIsWildcard = true → e.weekdays = allWeekdays

theorem parseNickname_wildcards {expr : Bytes} {e : CronExpression}
    (parsed : parseNickname expr = some e) : Wildcards e := by
  unfold parseNickname at parsed
  split at parsed
  · cases parsed
    exact ⟨by simp, fun _ => rfl⟩
  split at parsed
  · cases parsed
    exact ⟨by simp, fun _ => rfl⟩
  split at parsed
  · cases parsed
    exact ⟨fun _ => rfl, by simp⟩
  split at parsed
  · cases parsed
    exact ⟨fun _ => rfl, fun _ => rfl⟩
  split at parsed
  · cases parsed
    exact ⟨fun _ => rfl, fun _ => rfl⟩
  · cases parsed

theorem ok_of_bind {ε α β : Type} {x : Except ε α} {f : α → Except ε β} {b : β}
    (ok : x >>= f = .ok b) : ∃ a, x = .ok a ∧ f a = .ok b := by
  cases x with
  | error err => cases ok
  | ok a => exact ⟨a, rfl, ok⟩

/-- The flags of a parsed expression tell the truth. -/
theorem parse_wildcards {input : Bytes} {e : CronExpression} (parsed : parse input = .ok e) :
    Wildcards e := by
  unfold parse at parsed
  simp only at parsed
  split at parsed
  · split at parsed
    · cases parsed
      exact parseNickname_wildcards ‹_›
    · cases parsed
  split at parsed
  · rename_i minute hour day month weekday _
    obtain ⟨minutes, _, parsed⟩ := ok_of_bind parsed
    obtain ⟨hours, _, parsed⟩ := ok_of_bind parsed
    obtain ⟨days, isDays, parsed⟩ := ok_of_bind parsed
    obtain ⟨months, _, parsed⟩ := ok_of_bind parsed
    obtain ⟨weekdays, isWeekdays, parsed⟩ := ok_of_bind parsed
    cases parsed
    constructor
    · intro wild
      rw [of_decide_eq_true wild, parseField_days] at isDays
      cases isDays
      rfl
    · intro wild
      rw [of_decide_eq_true wild, parseField_weekdays] at isWeekdays
      cases isWeekdays
      rfl
  · cases parsed

end Bunx.Cron
