/-
Module: Bunx.Timer.EventLoopTimer
Purpose: A timer of the event loop and the order in which the heap compares timers.
Trusted boundary: none
Main exports: Timespec, Tag, EventLoopTimer, EventLoopTimer.less, less_iff
-/
import Mathlib.Algebra.Ring.Int.Defs
import Mathlib.Algebra.Ring.Nat
import Mathlib.Data.Prod.Lex
import Mathlib.Data.Int.Order.Basic

namespace Bunx.Timer

/-- Seconds and nanoseconds, two `i64`. -/
structure Timespec where
  sec : Int
  nsec : Int
deriving DecidableEq, Repr

namespace Timespec

def order (a b : Timespec) : Ordering :=
  match compare a.sec b.sec with
  | .eq => compare a.nsec b.nsec
  | o => o

def greater (a b : Timespec) : Bool := a.order b == .gt

end Timespec

inductive Tag where
  | TimerCallback
  | TimeoutObject
  | ImmediateObject
  | StatWatcherScheduler
  | UpgradedDuplex
  | DNSResolver
  | WindowsNamedPipe
  | WTFTimer
  | PostgresSQLConnectionTimeout
  | PostgresSQLConnectionMaxLifetime
  | MySQLConnectionTimeout
  | MySQLConnectionMaxLifetime
  | ValkeyConnectionTimeout
  | ValkeyConnectionReconnect
  | SubprocessTimeout
  | DevServerSweepSourceMaps
  | DevServerMemoryVisualizerTick
  | AbortSignalTimeout
  | DateHeaderTimer
  | BunTest
  | EventLoopDelayMonitor
  | CronJob
deriving DecidableEq, Repr

namespace Tag

def allowFakeTimers : Tag → Bool
  | WTFTimer | BunTest | EventLoopDelayMonitor | StatWatcherScheduler | CronJob => false
  | _ => true

/-- Whether `js_timer_flags_ptr` finds the flags of a JavaScript timer. -/
def hasJsTimerFlags : Tag → Bool
  | TimeoutObject | ImmediateObject | AbortSignalTimeout => true
  | _ => false

end Tag

inductive State where
  | pending
  | active
  | cancelled
  | fired
deriving DecidableEq, Repr

inductive InHeap where
  | none
  | regular
  | fake
deriving DecidableEq, Repr

/-- The low 25 bits of the flags of a JavaScript timer. -/
structure TimerFlags where
  epoch : Nat
deriving DecidableEq, Repr

def TimerFlags.setEpoch (_ : TimerFlags) (v : Nat) : TimerFlags := ⟨v % 2 ^ 25⟩

/-- A timer; `flags` are those of the object around it, which only JavaScript timers have. -/
structure EventLoopTimer where
  next : Timespec
  state : State
  tag : Tag
  inHeap : InHeap
  flags : TimerFlags
deriving DecidableEq, Repr

namespace EventLoopTimer

def initPaused (tag : Tag) : EventLoopTimer :=
  { next := ⟨0, 0⟩, state := .pending, tag, inHeap := .none, flags := ⟨0⟩ }

/-- A timer of `setTimeout`, `setInterval`, `setImmediate` or an abort signal. -/
def isJs (t : EventLoopTimer) : Bool := t.tag.hasJsTimerFlags

def jsTimerEpoch (t : EventLoopTimer) : Option Nat :=
  if t.tag.hasJsTimerFlags then some t.flags.epoch else none

def nsPerMs : Int := 1000000

def u25Max : Nat := 2 ^ 25 - 1

def less (a b : EventLoopTimer) : Bool :=
  let secOrder := compare a.next.sec b.next.sec
  if secOrder ≠ .eq then secOrder == .lt
  else
    -- Collapse sub-millisecond precision for JavaScript timers.
    let maybeAEpoch := a.jsTimerEpoch
    let maybeBEpoch := b.jsTimerEpoch
    let aNs := if maybeAEpoch.isSome then nsPerMs * a.next.nsec.tdiv nsPerMs else a.next.nsec
    let bNs := if maybeBEpoch.isSome then nsPerMs * b.next.nsec.tdiv nsPerMs else b.next.nsec
    let order := compare aNs bNs
    match order, maybeAEpoch, maybeBEpoch with
    | .eq, some aEpoch, some bEpoch =>
        decide (((bEpoch + 2 ^ 32 - aEpoch) % 2 ^ 32) &&& u25Max < u25Max / 2)
    | _, _, _ => order == .lt

/-! ### What `less` compares -/

/-- The nanoseconds that count: whole milliseconds for a JavaScript timer. -/
def countedNs (t : EventLoopTimer) : Int :=
  if t.isJs then nsPerMs * t.next.nsec.tdiv nsPerMs else t.next.nsec

/-- The deadline that counts. -/
def deadline (t : EventLoopTimer) : ℤ ×ₗ ℤ := toLex (t.next.sec, t.countedNs)

theorem jsTimerEpoch_isSome (t : EventLoopTimer) : t.jsTimerEpoch.isSome = t.isJs := by
  unfold jsTimerEpoch isJs
  cases t.tag.hasJsTimerFlags <;> rfl

/-- How far `b`'s epoch is ahead of `a`'s, round the 25 bits. -/
def epochDistance (a b : EventLoopTimer) : Nat := (b.flags.epoch + 2 ^ 32 - a.flags.epoch) % 2 ^ 25

/-- Deadlines decide; on equal ones two JavaScript timers go by their epochs. -/
theorem less_iff (a b : EventLoopTimer) : less a b = true ↔ a.deadline < b.deadline ∨
    a.deadline = b.deadline ∧ a.isJs = true ∧ b.isJs = true ∧
      epochDistance a b < 2 ^ 24 - 1 := by
  have masked (n : Nat) : (n % 4294967296) &&& u25Max = n % 33554432 := by
    have dvd : 2 ^ 25 ∣ 4294967296 := by decide
    rw [u25Max, Nat.and_two_pow_sub_one_eq_mod]
    exact Nat.mod_mod_of_dvd n dvd
  have half : u25Max / 2 = 16777215 := rfl
  have lexicographic : a.deadline < b.deadline ↔ a.next.sec < b.next.sec ∨
      a.next.sec = b.next.sec ∧ a.countedNs < b.countedNs := by
    simp [deadline, Prod.Lex.toLex_lt_toLex]
  have sameDeadline : a.deadline = b.deadline ↔ a.next.sec = b.next.sec ∧
      a.countedNs = b.countedNs := by
    simp [deadline]
  rw [lexicographic, sameDeadline]
  have counted (t : EventLoopTimer) : (if t.isJs = true then nsPerMs * t.next.nsec.tdiv nsPerMs
      else t.next.nsec) = t.countedNs := rfl
  unfold less
  simp only [jsTimerEpoch_isSome, counted]
  rcases lt_trichotomy a.next.sec b.next.sec with earlier | same | later
  · simp [compare_lt_iff_lt.mpr earlier, earlier]
  · rw [compare_eq_iff_eq.mpr same]
    rcases lt_trichotomy a.countedNs b.countedNs with before | tied | after
    · simp [compare_lt_iff_lt.mpr before, before, same]
    · rw [compare_eq_iff_eq.mpr tied]
      unfold jsTimerEpoch isJs
      cases a.tag.hasJsTimerFlags <;> cases b.tag.hasJsTimerFlags <;>
        simp [same, tied, masked, half, epochDistance]
    · have notBefore : ¬a.countedNs < b.countedNs := by omega
      have notTied : a.countedNs ≠ b.countedNs := by omega
      simp [compare_gt_iff_gt.mpr after, notBefore, notTied, same]
  · have notEarlier : ¬a.next.sec < b.next.sec := by omega
    have notSame : a.next.sec ≠ b.next.sec := by omega
    simp [compare_gt_iff_gt.mpr later, notEarlier, notSame]

end EventLoopTimer

end Bunx.Timer
