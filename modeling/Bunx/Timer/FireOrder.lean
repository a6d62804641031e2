/-
Module: Bunx.Timer.FireOrder
Purpose: The order that the timers of the heap are in, and when the comparison of the heap
  settles it.
Trusted boundary: none
Main exports: World, Step, comesBefore, Near, Single, settles, FireInv
-/
import Bunx.Timer.All

namespace Bunx.Timer

open Bunx.Io Bunx.Lib

/-- A JavaScript timer that came out: its deadline and the count of updates at its last one. -/
structure Popped where
  deadline : ℤ ×ₗ ℤ
  stamp : Nat

/-- The timers, with what a run has done to them: the members of the two heaps, how many
updates of JavaScript timers there were, at which of them each timer got its epoch, which
timers have been updated, and what came out, the last one first. -/
structure World (α : Type) where
  all : All α
  members : List α
  fakes : List α
  updates : Nat
  stamp : α → Nat
  isUpdated : α → Bool
  popped : List Popped

variable {α : Type} [DecidableEq α]

namespace World

/-- No timer was made yet. -/
def start (active : Bool) : World α :=
  { all := All.init active fun _ => .initPaused .TimerCallback
    members := []
    fakes := []
    updates := 0
    stamp := fun _ => 0
    isUpdated := fun _ => false
    popped := [] }

/-- A timer object is made. -/
def made (w : World α) (v : α) (timer : EventLoopTimer) (stamp : Nat) : World α :=
  { w with
    all := w.all.write v fun _ => timer
    stamp := Function.update w.stamp v stamp
    isUpdated := Function.update w.isUpdated v false }

/-- The timer `v` is in one of the heaps now. -/
def inserted (w : World α) (v : α) (all : All α) : World α :=
  { w with
    all
    members := (Held.entered w.all v w.members w.fakes).1
    fakes := (Held.entered w.all v w.members w.fakes).2 }

/-- The timer `v` is in no heap any more. -/
def removed (w : World α) (v : α) (all : All α) : World α :=
  { w with all, members := w.members.erase v, fakes := w.fakes.erase v }

/-- The timer `v` has another deadline and, where it is a JavaScript timer, a new epoch. -/
def retimed (w : World α) (v : α) (time : Timespec) : World α :=
  if (w.all.nodes v).isJs then
    { w with
      all := w.all.retime v time
      updates := w.updates + 1
      stamp := Function.update w.stamp v (w.updates + 1)
      isUpdated := Function.update w.isUpdated v true }
  else { w with all := w.all.retime v time }

/-- The timer `m` came out and is fired. -/
def fired (w : World α) (m : α) (all : All α) : World α :=
  { w with
    all := all.fired m
    members := w.members.erase m
    popped :=
      if (w.all.nodes m).isJs && w.isUpdated m then
        ⟨(w.all.nodes m).deadline, w.stamp m⟩ :: w.popped
      else w.popped }

end World

/-- One call, with the callers' parts of it: a timer object that waits in no heap is made
with the epoch of some earlier count of updates; a timer that does not wait is inserted; one
that waits is removed; any is updated; and one that comes out is fired. -/
inductive Step : World α → World α → Prop where
  | make {w : World α} {v : α} {timer : EventLoopTimer} {stamp : Nat}
      (idle : (w.all.nodes v).state ≠ .active) (isIdle : timer.state ≠ .active)
      (past : stamp ≤ w.updates) (epoch : timer.flags.epoch = stamp % 2 ^ 25) :
      Step w (w.made v timer stamp)
  | insert {w : World α} {v : α} (idle : (w.all.nodes v).state ≠ .active) :
      Step w (w.inserted v (w.all.insert v))
  | remove {w : World α} {v : α} {fuel : Nat} {all' : All α}
      (enough : w.members.length ≤ fuel) (enoughFakes : w.fakes.length ≤ fuel)
      (waits : (w.all.nodes v).state = .active) (ran : w.all.remove fuel v = some all') :
      Step w (w.removed v all')
  | update {w : World α} {v : α} {time : Timespec} {fuel : Nat} {all' : All α}
      (enough : w.members.length ≤ fuel) (enoughFakes : w.fakes.length ≤ fuel)
      (ran : w.all.update fuel v time = some all') :
      Step w (((w.removed v w.all).retimed v time).inserted v all')
  | next {w : World α} {fuel : Nat} {now now' : Option Timespec} {clock : Timespec} {m : α}
      {all' : All α} (enough : w.members.length ≤ fuel)
      (ran : w.all.next fuel now clock = some (some m, now', all')) :
      Step w (w.fired m all')

/-! ### The order -/

/-- Earlier deadlines come first; JavaScript timers with one deadline come in the order in
which they got their epochs. -/
def comesBefore (nodes : α → EventLoopTimer) (stamp : α → Nat) (a b : α) : Bool :=
  decide ((nodes a).deadline < (nodes b).deadline ∨
    (nodes a).deadline = (nodes b).deadline ∧ (nodes a).isJs = true ∧ (nodes b).isJs = true ∧
      stamp a < stamp b)

def World.lt (w : World α) : α → α → Bool := comesBefore w.all.nodes w.stamp

/-- Fewer than 2^24 - 1 updates separate any two JavaScript timers of the heap. -/
def World.Near (w : World α) : Prop :=
  ∀ a ∈ w.members, ∀ b ∈ w.members, (w.all.nodes a).isJs = true → (w.all.nodes b).isJs = true →
    w.stamp a < w.stamp b + (2 ^ 24 - 1)

/-- No other timer of the heap has the deadline of two JavaScript timers of the heap that got
their epochs at different updates. -/
def World.Single (w : World α) : Prop :=
  ∀ n ∈ w.members, ∀ a ∈ w.members, ∀ b ∈ w.members, (w.all.nodes n).isJs = false →
    (w.all.nodes a).isJs = true → (w.all.nodes b).isJs = true →
    (w.all.nodes a).deadline = (w.all.nodes n).deadline →
    (w.all.nodes b).deadline = (w.all.nodes n).deadline → w.stamp a = w.stamp b

/-- Epochs that are near go round the 25 bits in the order of their counts. -/
theorem epochDistance_iff {a b : EventLoopTimer} {x y : Nat} (epochA : a.flags.epoch = x % 2 ^ 25)
    (epochB : b.flags.epoch = y % 2 ^ 25) (near : x < y + (2 ^ 24 - 1))
    (near' : y < x + (2 ^ 24 - 1)) :
    EventLoopTimer.epochDistance a b < 2 ^ 24 - 1 ↔ x ≤ y := by
  unfold EventLoopTimer.epochDistance
  rw [epochA, epochB]
  omega

/-- The comparison of the heap settles the order among its members. -/
theorem settles {w : World α} (near : w.Near) (single : w.Single)
    (epochs : ∀ v, (w.all.nodes v).flags.epoch = w.stamp v % 2 ^ 25) :
    Settles w.all.less w.lt (· ∈ w.members) where
  first := by
    intro a b inA inB isLess
    unfold All.less at isLess
    rw [EventLoopTimer.less_iff] at isLess
    simp only [World.lt, comesBefore, decide_eq_true_eq]
    rintro (earlier | ⟨same, jsB, jsA, sooner⟩)
    · rcases isLess with before | ⟨tied, _⟩
      · exact lt_asymm before earlier
      · exact absurd tied (ne_of_gt earlier)
    · rcases isLess with before | ⟨_, _, _, close⟩
      · exact absurd same (ne_of_gt before)
      · have inOrder := (epochDistance_iff (epochs a) (epochs b) (near a inA b inB jsA jsB)
          (near b inB a inA jsB jsA)).mp close
        omega
  second := by
    intro a b inA inB notLess
    unfold All.less at notLess
    rw [EventLoopTimer.less_iff, not_or] at notLess
    simp only [World.lt, comesBefore, decide_eq_true_eq]
    rintro (earlier | ⟨same, jsA, jsB, sooner⟩)
    · exact notLess.1 earlier
    · apply notLess.2
      refine ⟨same, jsA, jsB, ?_⟩
      apply (epochDistance_iff (epochs a) (epochs b) (near a inA b inB jsA jsB)
        (near b inB a inA jsB jsA)).mpr
      omega
  cotrans := by
    intro a b c inA inB inC isLess
    simp only [World.lt, comesBefore, decide_eq_true_eq] at isLess ⊢
    rcases lt_trichotomy (w.all.nodes a).deadline (w.all.nodes b).deadline with
      early | same | late
    · exact .inl (.inl early)
    · rcases isLess with before | ⟨tied, jsA, jsC, sooner⟩
      · exact .inr (.inl (same ▸ before))
      · cases jsB : (w.all.nodes b).isJs with
        | false =>
            have single := single b inB a inA c inC jsB jsA jsC same (tied.symm.trans same)
            omega
        | true =>
            by_cases first : w.stamp a < w.stamp b
            · exact .inl (.inr ⟨same, jsA, rfl, first⟩)
            · exact .inr (.inr ⟨same.symm.trans tied, rfl, jsC, by omega⟩)
    · rcases isLess with before | ⟨tied, _⟩
      · exact .inr (.inl (late.trans before))
      · exact .inr (.inl (tied ▸ late))

/-! ### What the calls leave alone -/

/-- What the comparison looks at is the same. -/
structure Keeps (t t' : EventLoopTimer) : Prop where
  next : t'.next = t.next
  tag : t'.tag = t.tag
  flags : t'.flags = t.flags

namespace Keeps

variable {t t' : EventLoopTimer}

theorem refl (t : EventLoopTimer) : Keeps t t := ⟨rfl, rfl, rfl⟩

theorem isJs (keeps : Keeps t t') : t'.isJs = t.isJs := by
  rw [EventLoopTimer.isJs, keeps.tag, EventLoopTimer.isJs]

theorem deadline (keeps : Keeps t t') : t'.deadline = t.deadline := by
  simp only [EventLoopTimer.deadline, EventLoopTimer.countedNs, keeps.isJs, keeps.next]

end Keeps

omit [DecidableEq α] in
theorem comesBefore_congr {nodes nodes' : α → EventLoopTimer} {stamp stamp' : α → Nat} {a b : α}
    (keepsA : Keeps (nodes a) (nodes' a)) (keepsB : Keeps (nodes b) (nodes' b))
    (stampA : stamp' a = stamp a) (stampB : stamp' b = stamp b) :
    comesBefore nodes stamp a b = comesBefore nodes' stamp' a b := by
  simp only [comesBefore, keepsA.deadline, keepsB.deadline, keepsA.isJs, keepsB.isJs, stampA,
    stampB]

omit [DecidableEq α] in
theorem less_congr {all all' : All α} (keeps : ∀ v, Keeps (all.nodes v) (all'.nodes v)) :
    all'.less = all.less := by
  funext a b
  rw [Bool.eq_iff_iff]
  unfold All.less
  rw [EventLoopTimer.less_iff, EventLoopTimer.less_iff, EventLoopTimer.epochDistance,
    EventLoopTimer.epochDistance]
  simp only [(keeps a).deadline, (keeps b).deadline, (keeps a).isJs, (keeps b).isJs,
    (keeps a).flags, (keeps b).flags]

theorem insert_keeps (all : All α) (v x : α) :
    Keeps (all.nodes x) ((all.insertLockHeld v).nodes x) := by
  unfold All.insertLockHeld
  split
  all_goals
    by_cases here : x = v
    · subst here
      constructor <;> simp [All.write]
    · simp [All.write, here, Keeps.refl]

end Bunx.Timer
