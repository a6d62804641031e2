/-
Module: Bunx.Timer.All
Purpose: All timers of a thread: the heap of those that are due by the clock, the heap of
  those that a test's clock moves, and the calls on them.
Trusted boundary: a timer is in one of the two heaps at most, so each heap has links of
  its own here.
Main exports: All, insert, remove, update, next, Held
-/
import Bunx.Io.HeapRuns
import Bunx.Timer.EventLoopTimer

namespace Bunx.Timer

open Bunx.Io Bunx.Lib

structure FakeTimers (α : Type) where
  active : Bool
  timers : Intrusive α

/-- `nodes` are the timers there are. -/
structure All (α : Type) where
  timers : Intrusive α
  fakeTimers : FakeTimers α
  epoch : Nat
  nodes : α → EventLoopTimer

variable {α : Type} [DecidableEq α]

namespace All

def init (active : Bool) (nodes : α → EventLoopTimer) : All α :=
  { timers := .empty, fakeTimers := ⟨active, .empty⟩, epoch := 0, nodes }

def less (all : All α) (a b : α) : Bool := EventLoopTimer.less (all.nodes a) (all.nodes b)

/-- Write to a timer. -/
def write (all : All α) (timer : α) (change : EventLoopTimer → EventLoopTimer) : All α :=
  { all with nodes := Function.update all.nodes timer (change (all.nodes timer)) }

/-- Whether an insertion goes to the fake timers. -/
def goesToFake (all : All α) (timer : α) : Bool :=
  all.fakeTimers.active && (all.nodes timer).tag.allowFakeTimers

def insertLockHeld (all : All α) (timer : α) : All α :=
  if all.goesToFake timer then
    let timers := all.fakeTimers.timers.insert all.less timer
    { all with fakeTimers := { all.fakeTimers with timers } }.write timer
      fun t => { t with state := .active, inHeap := .fake }
  else
    let timers := all.timers.insert all.less timer
    { all with timers }.write timer fun t => { t with state := .active, inHeap := .regular }

def insert (all : All α) (timer : α) : All α := all.insertLockHeld timer

/-- `fuel` bounds the turns of the heap's loops. -/
def removeLockHeld (fuel : Nat) (all : All α) (timer : α) : Option (All α) := do
  let all ← match (all.nodes timer).inHeap with
    | .none => some all
    | .regular => do
        let timers ← all.timers.remove all.less fuel timer
        some { all with timers }
    | .fake => do
        let timers ← all.fakeTimers.timers.remove all.less fuel timer
        some { all with fakeTimers := { all.fakeTimers with timers } }
  return all.write timer fun t => { t with inHeap := .none, state := .cancelled }

def remove (fuel : Nat) (all : All α) (timer : α) : Option (All α) := all.removeLockHeld fuel timer

/-- The deadline is written, and a JavaScript timer gets the next epoch. -/
def retime (all : All α) (timer : α) (time : Timespec) : All α :=
  let all := all.write timer fun t => { t with next := time }
  if (all.nodes timer).tag.hasJsTimerFlags then
    let epoch := (all.epoch + 1) % 2 ^ 25
    { all with epoch }.write timer fun t => { t with flags := t.flags.setEpoch epoch }
  else all

def update (fuel : Nat) (all : All α) (timer : α) (time : Timespec) : Option (All α) := do
  let all ←
    if (all.nodes timer).state = .active then all.removeLockHeld fuel timer else some all
  return (all.retime timer time).insertLockHeld timer

/-- `now` is `none` until the clock is first read. -/
def next (fuel : Nat) (all : All α) (now : Option Timespec) (clock : Timespec) :
    Option (Option α × Option Timespec × All α) :=
  match all.timers.peek with
  | none => some (none, now, all)
  | some timer =>
      let now := now.getD clock
      if (all.nodes timer).next.greater now then some (none, some now, all)
      else do
        let (_, timers) ← all.timers.deleteMin all.less fuel
        some (some timer, some now, { all with timers })

theorem retime_js {all : All α} {timer : α} (js : (all.nodes timer).isJs = true)
    (time : Timespec) : all.retime timer time =
      { all.write timer fun t => { t with
          next := time, flags := t.flags.setEpoch ((all.epoch + 1) % 2 ^ 25) } with
        epoch := (all.epoch + 1) % 2 ^ 25 } := by
  rw [EventLoopTimer.isJs] at js
  simp [retime, write, js]

theorem retime_other {all : All α} {timer : α} (notJs : (all.nodes timer).isJs = false)
    (time : Timespec) : all.retime timer time =
      all.write timer fun t => { t with next := time } := by
  rw [EventLoopTimer.isJs] at notJs
  simp [retime, write, notJs]

/-- What a timer's handler does first. -/
def fired (all : All α) (timer : α) : All α :=
  all.write timer fun t => { t with state := .fired }

end All

/-! ### The heaps hold the members -/

/-- Both heaps are heaps of their members, the one of the regular timers in the order `lt`,
and each timer knows where it is. -/
structure Held (lt : α → α → Bool) (all : All α) (members fakes : List α) : Prop where
  regular : ∃ tree, HeapInv lt all.timers tree members
  fake : ∃ tree, HeapInv (fun _ _ => false) all.fakeTimers.timers tree fakes
  active : ∀ v, (all.nodes v).state = .active ↔ v ∈ members ∨ v ∈ fakes
  inRegular : ∀ v ∈ members, (all.nodes v).inHeap = .regular
  inFake : ∀ v ∈ fakes, (all.nodes v).inHeap = .fake

/-- The order in which nothing comes before anything is settled by any comparison. -/
theorem settles_nothing {less : α → α → Bool} {S : α → Prop} :
    Settles less (fun _ _ => false) S where
  first := by simp
  second := by simp
  cotrans := by simp

namespace Held

variable {lt lt' : α → α → Bool} {all : All α} {members fakes : List α}

theorem init (active : Bool) {nodes : α → EventLoopTimer}
    (idle : ∀ v, (nodes v).state ≠ .active) : Held lt (All.init active nodes) [] [] where
  regular := ⟨none, .empty⟩
  fake := ⟨none, .empty⟩
  active := by
    intro v
    simp [All.init, idle v]
  inRegular := by simp
  inFake := by simp

theorem distinct (held : Held lt all members fakes) : members.Nodup := by
  obtain ⟨_, inv⟩ := held.regular
  exact inv.distinct

theorem distinctFakes (held : Held lt all members fakes) : fakes.Nodup := by
  obtain ⟨_, inv⟩ := held.fake
  exact inv.distinct

theorem apart (held : Held lt all members fakes) {v : α} (member : v ∈ members) : v ∉ fakes := by
  intro both
  have regular := held.inRegular v member
  rw [held.inFake v both] at regular
  cases regular

/-- Only the order of the members counts. -/
theorem congr (held : Held lt all members fakes)
    (same : ∀ a ∈ members, ∀ b ∈ members, lt a b = lt' a b) : Held lt' all members fakes := by
  obtain ⟨tree, inv⟩ := held.regular
  exact { held with regular := ⟨tree, inv.congr same⟩ }

/-- A timer that is not waiting may be written to, as long as it does not wait afterwards. -/
theorem write (held : Held lt all members fakes) {v : α} (change : EventLoopTimer → EventLoopTimer)
    (idle : (all.nodes v).state ≠ .active) (stays : (change (all.nodes v)).state ≠ .active) :
    Held lt (all.write v change) members fakes := by
  have outside := mt (held.active v).mpr idle
  rw [not_or] at outside
  have kept {x : α} (different : x ≠ v) : (all.write v change).nodes x = all.nodes x :=
    Function.update_of_ne different ..
  refine ⟨held.regular, held.fake, ?_, ?_, ?_⟩
  · intro x
    by_cases here : x = v
    · subst here
      simp [All.write, stays, outside]
    · rw [kept here]
      exact held.active x
  · intro x member
    rw [kept (by rintro rfl; exact outside.1 member)]
    exact held.inRegular x member
  · intro x member
    rw [kept (by rintro rfl; exact outside.2 member)]
    exact held.inFake x member

/-- The members after a timer went to one of the heaps. -/
def entered (all : All α) (v : α) (members fakes : List α) : List α × List α :=
  if all.goesToFake v then (members, v :: fakes) else (v :: members, fakes)

/-- A timer that is not waiting goes to one of the heaps. -/
theorem insert (held : Held lt all members fakes) {v : α} (idle : (all.nodes v).state ≠ .active)
    (settles : Settles all.less lt (· ∈ (entered all v members fakes).1)) :
    Held lt (all.insertLockHeld v) (entered all v members fakes).1
      (entered all v members fakes).2 := by
  have outside := mt (held.active v).mpr idle
  rw [not_or] at outside
  unfold All.insertLockHeld
  by_cases toFake : all.goesToFake v = true
  · rw [entered, if_pos toFake, if_pos toFake]
    obtain ⟨tree, inv⟩ := held.fake
    refine ⟨held.regular, inv.insert settles_nothing outside.2, ?_, ?_, ?_⟩
    · intro x
      by_cases here : x = v
      · subst here
        simp [All.write]
      · have same := held.active x
        simpa [All.write, here] using same
    · intro x member
      have different : x ≠ v := by
        rintro rfl
        exact outside.1 member
      simpa [All.write, different] using held.inRegular x member
    · intro x member
      by_cases here : x = v
      · subst here
        simp [All.write]
      · have before := List.mem_of_ne_of_mem here member
        simpa [All.write, here] using held.inFake x before
  · rw [entered, if_neg toFake] at settles
    rw [entered, if_neg toFake, if_neg toFake]
    obtain ⟨tree, inv⟩ := held.regular
    refine ⟨inv.insert settles outside.1, held.fake, ?_, ?_, ?_⟩
    · intro x
      by_cases here : x = v
      · subst here
        simp [All.write]
      · have same := held.active x
        simpa [All.write, here] using same
    · intro x member
      by_cases here : x = v
      · subst here
        simp [All.write]
      · have before := List.mem_of_ne_of_mem here member
        simpa [All.write, here] using held.inRegular x before
    · intro x member
      have different : x ≠ v := by
        rintro rfl
        exact outside.2 member
      simpa [All.write, different] using held.inFake x member

/-- A waiting timer leaves its heap. -/
theorem remove (held : Held lt all members fakes) (settles : Settles all.less lt (· ∈ members))
    {v : α} (waits : (all.nodes v).state = .active) {fuel : Nat}
    (enough : members.length ≤ fuel) (enoughFakes : fakes.length ≤ fuel) :
    ∃ all', all.removeLockHeld fuel v = some all' ∧
      Held lt all' (members.erase v) (fakes.erase v) ∧
      all'.nodes = Function.update all.nodes v
        { all.nodes v with inHeap := .none, state := .cancelled } ∧
      all'.epoch = all.epoch ∧ all'.fakeTimers.active = all.fakeTimers.active := by
  have active (x : α) :
      (Function.update all.nodes v
        { all.nodes v with inHeap := .none, state := .cancelled } x).state = .active ↔
      x ∈ members.erase v ∨ x ∈ fakes.erase v := by
    by_cases here : x = v
    · subst here
      simp [held.distinct.mem_erase_iff, held.distinctFakes.mem_erase_iff]
    · simpa [here] using held.active x
  have inRegular (x : α) (member : x ∈ members.erase v) :
      (Function.update all.nodes v
        { all.nodes v with inHeap := .none, state := .cancelled } x).inHeap = .regular := by
    obtain ⟨different, before⟩ := held.distinct.mem_erase_iff.mp member
    simpa [different] using held.inRegular x before
  have inFake (x : α) (member : x ∈ fakes.erase v) :
      (Function.update all.nodes v
        { all.nodes v with inHeap := .none, state := .cancelled } x).inHeap = .fake := by
    obtain ⟨different, before⟩ := held.distinctFakes.mem_erase_iff.mp member
    simpa [different] using held.inFake x before
  obtain ⟨tree, inv⟩ := held.regular
  obtain ⟨fakeTree, fakeInv⟩ := held.fake
  unfold All.removeLockHeld
  rcases (held.active v).mp waits with member | member
  · rw [held.inRegular v member]
    obtain ⟨timers, tree', removed, inv'⟩ := inv.remove settles enough member
    have absent : fakes.erase v = fakes := List.erase_of_not_mem (held.apart member)
    refine ⟨{ all with timers }.write v fun t => { t with inHeap := .none, state := .cancelled },
      ?_, ⟨⟨tree', inv'⟩, ?_, active, inRegular, inFake⟩, rfl, rfl, rfl⟩
    · simp only [removed]
      rfl
    rw [absent]
    exact ⟨fakeTree, fakeInv⟩
  · rw [held.inFake v member]
    have nothing : Settles all.less (fun _ _ => false) (· ∈ fakes) := settles_nothing
    obtain ⟨timers, tree', removed, inv'⟩ := fakeInv.remove nothing enoughFakes member
    have absent : members.erase v = members :=
      List.erase_of_not_mem fun regular => held.apart regular member
    refine ⟨{ all with fakeTimers := { all.fakeTimers with timers } }.write v
      fun t => { t with inHeap := .none, state := .cancelled },
      ?_, ⟨?_, ⟨tree', inv'⟩, active, inRegular, inFake⟩, rfl, rfl, rfl⟩
    · simp only [removed]
      rfl
    rw [absent]
    exact ⟨tree, inv⟩

/-- `next` returns; a timer that comes out is one that no other one comes before, and it
does not wait any more once it is fired. -/
theorem next (held : Held lt all members fakes) (settles : Settles all.less lt (· ∈ members))
    {fuel : Nat} (enough : members.length ≤ fuel) (now : Option Timespec) (clock : Timespec) :
    ∃ popped now' all', all.next fuel now clock = some (popped, now', all') ∧
      (popped = none → all' = all) ∧
      ∀ m, popped = some m → m ∈ members ∧ (∀ y ∈ members, ¬lt y m = true) ∧
        Held lt (all'.fired m) (members.erase m) fakes ∧ all'.nodes = all.nodes ∧
        all'.epoch = all.epoch := by
  obtain ⟨tree, inv⟩ := held.regular
  unfold All.next
  cases isPeek : all.timers.peek with
  | none => exact ⟨none, _, all, rfl, fun _ => rfl, by simp⟩
  | some m =>
      simp only
      split
      · exact ⟨none, _, all, rfl, fun _ => rfl, by simp⟩
      · obtain ⟨member, least⟩ := HeapInv.peek_least settles inv isPeek
        obtain ⟨timers, tree', deleted, inv'⟩ := inv.deleteMin settles enough
        rw [isPeek] at inv'
        refine ⟨some m, _, { all with timers }, by simp only [deleted]; rfl, by simp, ?_⟩
        rintro _ ⟨⟩
        refine ⟨member, least, ⟨⟨tree', inv'⟩, held.fake, ?_, ?_, ?_⟩, rfl, rfl⟩
        · intro x
          by_cases here : x = m
          · subst here
            simp [All.fired, All.write, held.distinct.mem_erase_iff, held.apart member]
          · simpa [All.fired, All.write, here] using held.active x
        · intro x left
          obtain ⟨different, before⟩ := held.distinct.mem_erase_iff.mp left
          simpa [All.fired, All.write, different] using held.inRegular x before
        · intro x left
          have different : x ≠ m := by
            rintro rfl
            exact held.apart member left
          simpa [All.fired, All.write, different] using held.inFake x left

end Held

end Bunx.Timer
