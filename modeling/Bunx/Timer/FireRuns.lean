/-
Module: Bunx.Timer.FireRuns
Purpose: In what order the JavaScript timers come out of the heap, over whole runs.
Trusted boundary: none
Main exports: FireInv, Guard, timers_in_order
-/
import Mathlib
import Bunx.Lib.Run
import Bunx.Timer.FireOrder

namespace Bunx.Timer

open Bunx.Io Bunx.Lib

variable {α : Type} [DecidableEq α]

/-- What came out came out in order, and what waits does not belong before it. -/
structure FireInv (w : World α) : Prop where
  held : Held w.lt w.all w.members w.fakes
  near : w.Near
  single : w.Single
  epoch : w.all.epoch = w.updates % 2 ^ 25
  epochs : ∀ v, (w.all.nodes v).flags.epoch = w.stamp v % 2 ^ 25
  past : ∀ v, w.stamp v ≤ w.updates
  pastPopped : ∀ p ∈ w.popped, p.stamp ≤ w.updates
  ordered : w.popped.Pairwise fun later earlier =>
    earlier.deadline = later.deadline → earlier.stamp ≤ later.stamp
  waiting : ∀ p ∈ w.popped, ∀ a ∈ w.members, (w.all.nodes a).isJs = true →
    w.isUpdated a = true → (w.all.nodes a).deadline = p.deadline → p.stamp ≤ w.stamp a

namespace FireInv

variable {w w' : World α}

theorem start (active : Bool) : FireInv (World.start active : World α) where
  held := Held.init active fun _ => by simp [EventLoopTimer.initPaused]
  near := by simp [World.Near, World.start]
  single := by simp [World.Single, World.start]
  epoch := rfl
  epochs := fun _ => rfl
  past := fun _ => Nat.zero_le _
  pastPopped := by simp [World.start]
  ordered := List.Pairwise.nil
  waiting := by simp [World.start]

theorem settles (inv : FireInv w) : Settles w.all.less w.lt (· ∈ w.members) :=
  Bunx.Timer.settles inv.near inv.single inv.epochs

/-- A change of other timers than the members that stay. -/
theorem transfer (inv : FireInv w) (held : Held w'.lt w'.all w'.members w'.fakes)
    (fewer : ∀ a ∈ w'.members, a ∈ w.members)
    (keeps : ∀ a ∈ w'.members, Keeps (w.all.nodes a) (w'.all.nodes a))
    (stamps : ∀ a ∈ w'.members, w'.stamp a = w.stamp a)
    (isUpdated : ∀ a ∈ w'.members, w'.isUpdated a = w.isUpdated a)
    (popped : w'.popped = w.popped) (later : w.updates ≤ w'.updates)
    (epoch : w'.all.epoch = w'.updates % 2 ^ 25)
    (epochs : ∀ v, (w'.all.nodes v).flags.epoch = w'.stamp v % 2 ^ 25)
    (past : ∀ v, w'.stamp v ≤ w'.updates) : FireInv w' where
  held := held
  near := by
    intro a inA b inB jsA jsB
    rw [(keeps a inA).isJs] at jsA
    rw [(keeps b inB).isJs] at jsB
    rw [stamps a inA, stamps b inB]
    exact inv.near a (fewer a inA) b (fewer b inB) jsA jsB
  single := by
    intro n inN a inA b inB notJs jsA jsB
    rw [(keeps n inN).isJs] at notJs
    rw [(keeps a inA).isJs] at jsA
    rw [(keeps b inB).isJs] at jsB
    rw [stamps a inA, stamps b inB, (keeps n inN).deadline, (keeps a inA).deadline,
      (keeps b inB).deadline]
    exact inv.single n (fewer n inN) a (fewer a inA) b (fewer b inB) notJs jsA jsB
  epoch := epoch
  epochs := epochs
  past := past
  pastPopped := by
    rw [popped]
    exact fun p member => (inv.pastPopped p member).trans later
  ordered := popped ▸ inv.ordered
  waiting := by
    rw [popped]
    intro p member a inA
    rw [(keeps a inA).isJs, (keeps a inA).deadline, stamps a inA, isUpdated a inA]
    exact inv.waiting p member a (fewer a inA)

theorem outside (inv : FireInv w) {v : α} (idle : (w.all.nodes v).state ≠ .active) :
    v ∉ w.members ∧ v ∉ w.fakes := by
  have outside := mt (inv.held.active v).mpr idle
  rwa [not_or] at outside

/-- A timer object is made. -/
theorem made (inv : FireInv w) {v : α} {timer : EventLoopTimer} {stamp : Nat}
    (idle : (w.all.nodes v).state ≠ .active) (isIdle : timer.state ≠ .active)
    (past : stamp ≤ w.updates) (epoch : timer.flags.epoch = stamp % 2 ^ 25) :
    FireInv (w.made v timer stamp) := by
  have outside := (inv.outside idle).1
  have different {x : α} (member : x ∈ w.members) : x ≠ v := by
    rintro rfl
    exact outside member
  have keeps : ∀ x ∈ w.members, Keeps (w.all.nodes x) ((w.made v timer stamp).all.nodes x) := by
    intro x member
    simp [World.made, All.write, different member, Keeps.refl]
  have stamps : ∀ x ∈ w.members, (w.made v timer stamp).stamp x = w.stamp x := by
    intro x member
    simp [World.made, different member]
  have held := inv.held.write (fun _ => timer) idle isIdle
  refine inv.transfer (held.congr ?_) (fun _ member => member) keeps stamps ?_ rfl
    (Nat.le_refl _) inv.epoch ?_ ?_
  · intro a inA b inB
    exact comesBefore_congr (keeps a inA) (keeps b inB) (stamps a inA) (stamps b inB)
  · intro x member
    simp [World.made, different member]
  · intro x
    by_cases here : x = v
    · subst here
      simpa [World.made, All.write] using epoch
    · simpa [World.made, All.write, here] using inv.epochs x
  · intro x
    by_cases here : x = v
    · subst here
      simpa [World.made] using past
    · simpa [World.made, here] using inv.past x

/-- A timer leaves its heap. -/
theorem removed (inv : FireInv w) {v : α} (waits : (w.all.nodes v).state = .active) {fuel : Nat}
    (enough : w.members.length ≤ fuel) (enoughFakes : w.fakes.length ≤ fuel) :
    ∃ all', w.all.removeLockHeld fuel v = some all' ∧ FireInv (w.removed v all') ∧
      (all'.nodes v).state ≠ .active ∧ (∀ x, Keeps (w.all.nodes x) (all'.nodes x)) ∧
      all'.fakeTimers.active = w.all.fakeTimers.active := by
  obtain ⟨all', ran, held, nodes, epoch, active⟩ :=
    inv.held.remove inv.settles waits enough enoughFakes
  have keeps (x : α) : Keeps (w.all.nodes x) (all'.nodes x) := by
    rw [nodes]
    by_cases here : x = v
    · subst here
      constructor <;> simp
    · simp [here, Keeps.refl]
  refine ⟨all', ran, ?_, ?_, keeps, active⟩
  · refine inv.transfer (held.congr ?_) (fun x member => List.mem_of_mem_erase member)
      (fun x _ => keeps x) (fun _ _ => rfl) (fun _ _ => rfl) rfl (Nat.le_refl _)
      (epoch.trans inv.epoch) ?_ inv.past
    · intro a _ b _
      exact comesBefore_congr (keeps a) (keeps b) rfl rfl
    · intro x
      rw [World.removed, (keeps x).flags]
      exact inv.epochs x
  · simp [nodes]

/-- A timer that waits in no heap gets a deadline. -/
theorem retimed (inv : FireInv w) {v : α} (idle : (w.all.nodes v).state ≠ .active)
    (time : Timespec) : FireInv (w.retimed v time) := by
  have outside := (inv.outside idle).1
  have different {x : α} (member : x ∈ w.members) : x ≠ v := by
    rintro rfl
    exact outside member
  cases js : (w.all.nodes v).isJs with
  | true =>
      have keeps : ∀ x ∈ w.members, Keeps (w.all.nodes x) ((w.all.retime v time).nodes x) := by
        intro x member
        simp [All.retime_js js, All.write, different member, Keeps.refl]
      have stamps : ∀ x ∈ w.members, (w.retimed v time).stamp x = w.stamp x := by
        intro x member
        simp [World.retimed, js, different member]
      have held : Held w.lt (w.all.retime v time) w.members w.fakes := by
        rw [All.retime_js js]
        have written := inv.held.write (fun t => { t with
          next := time, flags := t.flags.setEpoch ((w.all.epoch + 1) % 2 ^ 25) }) idle idle
        exact ⟨written.regular, written.fake, written.active, written.inRegular, written.inFake⟩
      have stale : w.retimed v time =
          { w with
            all := w.all.retime v time
            updates := w.updates + 1
            stamp := Function.update w.stamp v (w.updates + 1)
            isUpdated := Function.update w.isUpdated v true } := by
        rw [World.retimed, if_pos js]
      have epoch : (w.all.epoch + 1) % 2 ^ 25 = (w.updates + 1) % 2 ^ 25 := by
        rw [inv.epoch]
        omega
      rw [stale] at stamps ⊢
      refine inv.transfer (held.congr ?_) (fun _ member => member) keeps stamps ?_ rfl
        (Nat.le_succ _) ?_ ?_ ?_
      · intro a inA b inB
        exact comesBefore_congr (keeps a inA) (keeps b inB) (stamps a inA) (stamps b inB)
      · intro x member
        simp [different member]
      · rw [All.retime_js js]
        exact epoch
      · intro x
        by_cases here : x = v
        · subst here
          simp [All.retime_js js, All.write, TimerFlags.setEpoch, inv.epoch]
        · simpa [All.retime_js js, All.write, here] using inv.epochs x
      · intro x
        by_cases here : x = v
        · subst here
          simp
        · simpa [here] using (inv.past x).trans (Nat.le_succ _)
  | false =>
      have keeps : ∀ x ∈ w.members, Keeps (w.all.nodes x) ((w.all.retime v time).nodes x) := by
        intro x member
        simp [All.retime_other js, All.write, different member, Keeps.refl]
      have held : Held w.lt (w.all.retime v time) w.members w.fakes := by
        rw [All.retime_other js]
        exact inv.held.write _ idle idle
      have kept : w.retimed v time = { w with all := w.all.retime v time } := by
        rw [World.retimed, js]
        rfl
      rw [kept]
      refine inv.transfer (held.congr ?_) (fun _ member => member) keeps (fun _ _ => rfl)
        (fun _ _ => rfl) rfl (Nat.le_refl _) ?_ ?_ inv.past
      · intro a inA b inB
        exact comesBefore_congr (keeps a inA) (keeps b inB) rfl rfl
      · rw [All.retime_other js]
        exact inv.epoch
      · intro x
        by_cases here : x = v
        · subst here
          simpa [All.retime_other js, All.write] using inv.epochs x
        · simpa [All.retime_other js, All.write, here] using inv.epochs x

/-- A timer goes to one of the heaps. -/
theorem inserted (inv : FireInv w) {v : α} (idle : (w.all.nodes v).state ≠ .active)
    (near : (w.inserted v (w.all.insertLockHeld v)).Near)
    (single : (w.inserted v (w.all.insertLockHeld v)).Single)
    (timely : v ∈ (w.inserted v (w.all.insertLockHeld v)).members → (w.all.nodes v).isJs = true →
      w.isUpdated v = true → ∀ p ∈ w.popped, (w.all.nodes v).deadline = p.deadline →
      p.stamp ≤ w.stamp v) : FireInv (w.inserted v (w.all.insertLockHeld v)) := by
  have keeps := insert_keeps w.all v
  have epochs (x : α) :
      ((w.all.insertLockHeld v).nodes x).flags.epoch = w.stamp x % 2 ^ 25 := by
    rw [(keeps x).flags]
    exact inv.epochs x
  have sameLess := less_congr keeps
  have sameLt : (w.inserted v (w.all.insertLockHeld v)).lt = w.lt := by
    funext a b
    exact (comesBefore_congr (keeps a) (keeps b) rfl rfl).symm
  have settled := Bunx.Timer.settles near single epochs
  rw [sameLt, World.inserted, sameLess] at settled
  have held := inv.held.insert idle settled
  refine ⟨sameLt ▸ held, near, single, ?_, epochs, inv.past, inv.pastPopped, inv.ordered, ?_⟩
  · unfold All.insertLockHeld
    split <;> exact inv.epoch
  · intro p isPopped a member js updated same
    change ((w.all.insertLockHeld v).nodes a).isJs = true at js
    change ((w.all.insertLockHeld v).nodes a).deadline = p.deadline at same
    rw [(keeps a).isJs] at js
    rw [(keeps a).deadline] at same
    by_cases here : a = v
    · subst here
      exact timely member js updated p isPopped same
    · apply inv.waiting p isPopped a _ js updated same
      unfold World.inserted Held.entered at member
      split at member
      · exact member
      · exact List.mem_of_ne_of_mem here member

/-- The least timer comes out. -/
theorem fired (inv : FireInv w) {fuel : Nat} (enough : w.members.length ≤ fuel)
    {now now' : Option Timespec} {clock : Timespec} {m : α} {all' : All α}
    (ran : w.all.next fuel now clock = some (some m, now', all')) : FireInv (w.fired m all') := by
  obtain ⟨_, _, _, ran', _, out⟩ := inv.held.next inv.settles enough now clock
  rw [ran] at ran'
  cases ran'
  obtain ⟨member, least, held, nodes, epoch⟩ := out m rfl
  have keeps (x : α) : Keeps (w.all.nodes x) ((all'.fired m).nodes x) := by
    rw [All.fired, All.write, nodes]
    by_cases here : x = m
    · subst here
      constructor <;> simp
    · simp [here, Keeps.refl]
  have still : FireInv { w with all := all'.fired m, members := w.members.erase m } := by
    refine inv.transfer (held.congr ?_) (fun x left => List.mem_of_mem_erase left)
      (fun x _ => keeps x) (fun _ _ => rfl) (fun _ _ => rfl) rfl (Nat.le_refl _)
      (epoch.trans inv.epoch) ?_ inv.past
    · intro a _ b _
      exact comesBefore_congr (keeps a) (keeps b) rfl rfl
    · intro x
      rw [(keeps x).flags]
      exact inv.epochs x
  by_cases counts : ((w.all.nodes m).isJs && w.isUpdated m) = true
  · have counted : w.fired m all' = { w with
        all := all'.fired m
        members := w.members.erase m
        popped := ⟨(w.all.nodes m).deadline, w.stamp m⟩ :: w.popped } := by
      rw [World.fired, if_pos counts]
    rw [Bool.and_eq_true] at counts
    rw [counted]
    refine ⟨still.held, still.near, still.single, still.epoch, still.epochs, still.past, ?_, ?_, ?_⟩
    · intro p isPopped
      cases isPopped with
      | head => exact inv.past m
      | tail _ before => exact inv.pastPopped p before
    · apply List.Pairwise.cons _ inv.ordered
      intro p before same
      exact inv.waiting p before m member counts.1 counts.2 same.symm
    · intro p isPopped a left js updated same
      cases isPopped with
      | head =>
          have notBefore := least a (List.mem_of_mem_erase left)
          change ((all'.fired m).nodes a).isJs = true at js
          change ((all'.fired m).nodes a).deadline = (w.all.nodes m).deadline at same
          rw [(keeps a).isJs] at js
          rw [(keeps a).deadline] at same
          simp only [World.lt, comesBefore, decide_eq_true_eq, not_or, not_and] at notBefore
          exact Nat.le_of_not_lt (notBefore.2 same js counts.1)
      | tail _ before => exact still.waiting p before a left js updated same
  · have counted : w.fired m all' = { w with
        all := all'.fired m, members := w.members.erase m } := by
      rw [World.fired, if_neg counts]
    rw [counted]
    exact still

end FireInv

/-! ### Runs -/

/-- After the step the JavaScript timers of the heap are near and no two of them share their
deadline with another timer of the heap; and the step does not put a timer back that was last
updated before one of its deadline that came out already. -/
structure Guard (w w' : World α) : Prop where
  near : w'.Near
  single : w'.Single
  timely : ∀ v ∈ w'.members, v ∉ w.members → w'.stamp v = w.stamp v →
    (w'.all.nodes v).isJs = true → w'.isUpdated v = true →
    ∀ p ∈ w.popped, (w'.all.nodes v).deadline = p.deadline → p.stamp ≤ w.stamp v

theorem goesToFake_congr {all all' : All α} {v : α}
    (active : all'.fakeTimers.active = all.fakeTimers.active)
    (tag : (all'.nodes v).tag = (all.nodes v).tag) : all'.goesToFake v = all.goesToFake v := by
  rw [All.goesToFake, active, tag, All.goesToFake]

theorem retime_tag (all : All α) (v : α) (time : Timespec) :
    ((all.retime v time).nodes v).tag = (all.nodes v).tag ∧
      (all.retime v time).fakeTimers.active = all.fakeTimers.active := by
  cases js : (all.nodes v).isJs with
  | true => simp [All.retime_js js, All.write]
  | false => simp [All.retime_other js, All.write]

/-- The ghost part of an update does not depend on what the removal did to the heaps. -/
theorem retimed_inserted {w : World α} {v : α} {all all' : All α}
    (keeps : Keeps (w.all.nodes v) (all.nodes v))
    (active : all.fakeTimers.active = w.all.fakeTimers.active) (time : Timespec) :
    ((w.removed v w.all).retimed v time).inserted v all' =
      ((w.removed v all).retimed v time).inserted v all' := by
  have tag := retime_tag w.all v time
  have tag' := retime_tag all v time
  have place : (all.retime v time).goesToFake v = (w.all.retime v time).goesToFake v := by
    apply goesToFake_congr
    · rw [tag'.2, tag.2, active]
    · rw [tag'.1, tag.1, keeps.tag]
  have js := keeps.isJs
  cases isJs : (w.all.nodes v).isJs <;> rw [isJs] at js <;>
    simp [World.retimed, World.removed, World.inserted, Held.entered, isJs, js, place]

/-- An update is a removal, a new deadline and an insertion. -/
theorem FireInv.updated {w : World α} (inv : FireInv w) {v : α} {time : Timespec} {fuel : Nat}
    {all' : All α} (enough : w.members.length ≤ fuel) (enoughFakes : w.fakes.length ≤ fuel)
    (ran : w.all.update fuel v time = some all')
    (guard : Guard w (((w.removed v w.all).retimed v time).inserted v all')) :
    FireInv (((w.removed v w.all).retimed v time).inserted v all') := by
  have left : ∃ all₁, w.all.update fuel v time = some ((all₁.retime v time).insertLockHeld v) ∧
      FireInv (w.removed v all₁) ∧ (all₁.nodes v).state ≠ .active ∧
      Keeps (w.all.nodes v) (all₁.nodes v) ∧
      all₁.fakeTimers.active = w.all.fakeTimers.active := by
    by_cases waits : (w.all.nodes v).state = .active
    · obtain ⟨all₁, removed, inv₁, idle, keeps, active⟩ := inv.removed waits enough enoughFakes
      refine ⟨all₁, ?_, inv₁, idle, keeps v, active⟩
      rw [All.update, if_pos waits, removed]
      rfl
    · obtain ⟨notMember, notFake⟩ := inv.outside waits
      have same : w.removed v w.all = w := by
        rw [World.removed, List.erase_of_not_mem notMember, List.erase_of_not_mem notFake]
      refine ⟨w.all, ?_, by rwa [same], waits, Keeps.refl _, rfl⟩
      rw [All.update, if_neg waits]
      rfl
  obtain ⟨all₁, updated, inv₁, idle, keeps, active⟩ := left
  have inv₂ := inv₁.retimed idle time
  have retimed : ((w.removed v all₁).retimed v time).all = all₁.retime v time := by
    unfold World.retimed
    split <;> rfl
  have isAll : all' = ((w.removed v all₁).retimed v time).all.insertLockHeld v := by
    rw [updated] at ran
    rw [retimed]
    exact (Option.some.inj ran).symm
  have sameWorld : ((w.removed v w.all).retimed v time).inserted v all' =
      ((w.removed v all₁).retimed v time).inserted v all' := retimed_inserted keeps active time
  have idle₂ : (((w.removed v all₁).retimed v time).all.nodes v).state ≠ .active := by
    rw [retimed]
    cases js : (all₁.nodes v).isJs with
    | true => simpa [All.retime_js js, All.write] using idle
    | false => simpa [All.retime_other js, All.write] using idle
  rw [sameWorld] at guard ⊢
  subst isAll
  apply inv₂.inserted idle₂ guard.near guard.single
  intro member js updated p isPopped same
  have wasJs : (all₁.nodes v).isJs = true := by
    rw [retimed, EventLoopTimer.isJs, (retime_tag all₁ v time).1] at js
    exact js
  have counted : (w.removed v all₁).retimed v time = { w.removed v all₁ with
      all := all₁.retime v time
      updates := w.updates + 1
      stamp := Function.update w.stamp v (w.updates + 1)
      isUpdated := Function.update w.isUpdated v true } := by
    rw [World.retimed, World.removed, if_pos wasJs]
  rw [counted] at isPopped ⊢
  simp only [Function.update_self]
  exact (inv.pastPopped p isPopped).trans (Nat.le_succ _)

/-- A step under the guard keeps the invariant. -/
theorem Step.keeps {w w' : World α} (step : Step w w') (guard : Guard w w') (inv : FireInv w) :
    FireInv w' := by
  cases step with
  | make idle isIdle past epoch => exact inv.made idle isIdle past epoch
  | @insert v idle =>
      apply inv.inserted idle guard.near guard.single
      intro member js updated p isPopped same
      have keeps := insert_keeps w.all v v
      apply guard.timely _ member (inv.outside idle).1 rfl _ updated p isPopped
      · exact keeps.deadline.trans same
      · exact keeps.isJs.trans js
  | remove enough enoughFakes waits ran =>
      obtain ⟨all', removed, inv', _⟩ := inv.removed waits enough enoughFakes
      rw [All.remove, removed] at ran
      cases ran
      exact inv'
  | update enough enoughFakes ran => exact inv.updated enough enoughFakes ran guard
  | next enough ran => exact inv.fired enough ran

/-- The JavaScript timers with one deadline came out in the order of their last updates, the
last one first. -/
def World.InOrder (w : World α) : Prop :=
  w.popped.Pairwise fun later earlier =>
    earlier.deadline = later.deadline → earlier.stamp ≤ later.stamp

/-- In a run under the guard the JavaScript timers come out in order: `next` returns, and
where it gives one out, none with an earlier deadline waits, nor one with the same deadline
that was updated before. -/
theorem timers_in_order {active : Bool} {w : World α}
    (run : GuardedRun Step Guard (World.start active) w) :
    w.InOrder ∧
      ∀ (fuel : Nat) (now : Option Timespec) (clock : Timespec), w.members.length ≤ fuel →
        ∃ popped now' all', w.all.next fuel now clock = some (popped, now', all') ∧
          ∀ m, popped = some m → (w.all.nodes m).isJs = true →
            m ∈ w.members ∧ ∀ x ∈ w.members, (w.all.nodes x).isJs = true →
              ¬(w.all.nodes x).deadline < (w.all.nodes m).deadline ∧
                ((w.all.nodes x).deadline = (w.all.nodes m).deadline →
                  w.stamp m ≤ w.stamp x) := by
  have inv : FireInv w := by
    apply Run.invariant FireInv run (FireInv.start active)
    intro w w' step
    exact step.1.keeps step.2
  refine ⟨inv.ordered, ?_⟩
  intro fuel now clock enough
  obtain ⟨popped, now', all', ran, _, out⟩ := inv.held.next inv.settles enough now clock
  refine ⟨popped, now', all', ran, ?_⟩
  intro m isPopped jsM
  obtain ⟨member, least, _⟩ := out m isPopped
  refine ⟨member, ?_⟩
  intro x inX jsX
  have notBefore := least x inX
  simp only [World.lt, comesBefore, decide_eq_true_eq, not_or, not_and] at notBefore
  refine ⟨notBefore.1, ?_⟩
  intro same
  exact Nat.le_of_not_lt (notBefore.2 same jsX jsM)

/-! ### Two runs -/

/-- A timer as it is made, out of all heaps and with epoch 0. -/
def sampleTimer (tag : Tag) : EventLoopTimer := .initPaused tag

/-- A deadline after whole milliseconds. -/
def milliseconds (n : Nat) : Timespec := ⟨0, n * 1000000⟩

/-- The world after an update, and after a timer came out. -/
def sampleUpdate (w : World Nat) (v : Nat) (time : Timespec) : World Nat :=
  ((w.removed v w.all).retimed v time).inserted v ((w.all.update 9 v time).getD w.all)

def sampleNext (w : World Nat) (m : Nat) : World Nat :=
  w.fired m ((w.all.next 9 none (milliseconds 9)).elim w.all fun out => out.2.2)

theorem sampleUpdate_step {w : World Nat} {v : Nat} {time : Timespec}
    (enough : w.members.length ≤ 9 ∧ w.fakes.length ≤ 9)
    (ran : (w.all.update 9 v time).isSome = true) : Step w (sampleUpdate w v time) := by
  apply Step.update enough.1 enough.2
  cases returned : w.all.update 9 v time with
  | none =>
      rw [returned] at ran
      cases ran
  | some all' => rfl

theorem sampleNext_step {w : World Nat} {m : Nat} (enough : w.members.length ≤ 9)
    (ran : (w.all.next 9 none (milliseconds 9)).map (fun out => out.1) = some (some m)) :
    Step w (sampleNext w m) := by
  unfold sampleNext
  cases returned : w.all.next 9 none (milliseconds 9) with
  | none =>
      rw [returned] at ran
      cases ran
  | some out =>
      obtain ⟨popped, now', all'⟩ := out
      rw [returned] at ran
      cases ran
      exact Step.next enough returned

/-- Timers 0, 1 and 2 are of JavaScript, all others are not. -/
def sampleStart : World Nat :=
  (((World.start false).made 0 (sampleTimer .TimeoutObject) 0).made 1
    (sampleTimer .TimeoutObject) 0).made 2 (sampleTimer .TimeoutObject) 0

instance (w : World Nat) : Decidable w.Near := by
  unfold World.Near
  infer_instance

instance (w : World Nat) : Decidable w.Single := by
  unfold World.Single
  infer_instance

instance (w : World Nat) : Decidable w.InOrder := by
  unfold World.InOrder
  infer_instance

theorem sampleStart_run {guard : World Nat → World Nat → Prop}
    (first : guard (World.start false) ((World.start false).made 0 (sampleTimer .TimeoutObject) 0))
    (second : guard ((World.start false).made 0 (sampleTimer .TimeoutObject) 0)
      (((World.start false).made 0 (sampleTimer .TimeoutObject) 0).made 1
        (sampleTimer .TimeoutObject) 0))
    (third : guard (((World.start false).made 0 (sampleTimer .TimeoutObject) 0).made 1
        (sampleTimer .TimeoutObject) 0) sampleStart) :
    GuardedRun Step guard (World.start false) sampleStart := by
  have one : Step (World.start false)
      ((World.start false).made 0 (sampleTimer .TimeoutObject) 0 : World Nat) :=
    .make (by decide) (by decide) (by decide) rfl
  have two : Step ((World.start false).made 0 (sampleTimer .TimeoutObject) 0 : World Nat)
      (((World.start false).made 0 (sampleTimer .TimeoutObject) 0).made 1
        (sampleTimer .TimeoutObject) 0) :=
    .make (by decide) (by decide) (by decide) rfl
  have three : Step (((World.start false).made 0 (sampleTimer .TimeoutObject) 0).made 1
      (sampleTimer .TimeoutObject) 0 : World Nat) sampleStart :=
    .make (by decide) (by decide) (by decide) rfl
  exact ((Relation.ReflTransGen.single ⟨one, first⟩).tail ⟨two, second⟩).tail ⟨three, third⟩

/-- Two JavaScript timers of one millisecond, and the first of them came out. -/
def sampleOne : World Nat := sampleUpdate sampleStart 0 (milliseconds 1)
def sampleBoth : World Nat := sampleUpdate sampleOne 1 ⟨0, 1000005⟩
def sampleOut : World Nat := sampleNext sampleBoth 0

theorem sampleOut_run : GuardedRun Step Guard (World.start false) sampleOut := by
  have made : GuardedRun Step Guard (World.start false) sampleStart := sampleStart_run
    ⟨by decide, by decide, by decide⟩ ⟨by decide, by decide, by decide⟩
    ⟨by decide, by decide, by decide⟩
  have one : Step sampleStart sampleOne := sampleUpdate_step (by decide) (by decide +kernel)
  have both : Step sampleOne sampleBoth := sampleUpdate_step (by decide) (by decide +kernel)
  have out : Step sampleBoth sampleOut := sampleNext_step (by decide) (by decide +kernel)
  exact ((made.tail ⟨one, by decide +kernel, by decide +kernel, by decide +kernel⟩).tail
    ⟨both, by decide +kernel, by decide +kernel, by decide +kernel⟩).tail
    ⟨out, by decide +kernel, by decide +kernel, by decide +kernel⟩

theorem timers_in_order_sample :
    sampleOut.InOrder ∧
      ∀ (fuel : Nat) (now : Option Timespec) (clock : Timespec),
        sampleOut.members.length ≤ fuel →
        ∃ popped now' all', sampleOut.all.next fuel now clock = some (popped, now', all') ∧
          ∀ m, popped = some m → (sampleOut.all.nodes m).isJs = true →
            m ∈ sampleOut.members ∧ ∀ x ∈ sampleOut.members,
              (sampleOut.all.nodes x).isJs = true →
              ¬(sampleOut.all.nodes x).deadline < (sampleOut.all.nodes m).deadline ∧
                ((sampleOut.all.nodes x).deadline = (sampleOut.all.nodes m).deadline →
                  sampleOut.stamp m ≤ sampleOut.stamp x) :=
  timers_in_order sampleOut_run

/-- Timer 3 is not of JavaScript and has exactly the deadline of the timers 1 and 2. -/
def sampleFirst : World Nat := sampleUpdate sampleStart 3 (milliseconds 1)
def sampleSecond : World Nat := sampleUpdate sampleFirst 0 (milliseconds 0)
def sampleThird : World Nat := sampleUpdate sampleSecond 1 (milliseconds 1)
def sampleFourth : World Nat := sampleUpdate sampleThird 4 (milliseconds 0)
def sampleFifth : World Nat := sampleUpdate sampleFourth 2 (milliseconds 1)
def sampleSixth : World Nat := sampleNext sampleFifth 0
def sampleSeventh : World Nat := sampleNext sampleSixth 4
def sampleEighth : World Nat := sampleNext sampleSeventh 2
def sampleNinth : World Nat := sampleNext sampleEighth 3
def sampleTenth : World Nat := sampleNext sampleNinth 1

/-- Timer 2 comes out before timer 1, though it was updated after it. -/
theorem timers_swapped : ¬∀ w : World Nat,
    GuardedRun Step (fun _ w' => w'.Near) (World.start false) w → w.InOrder := by
  intro always
  have made : GuardedRun Step (fun _ w' => w'.Near) (World.start false) sampleStart :=
    sampleStart_run (by decide) (by decide) (by decide)
  have first : Step sampleStart sampleFirst := sampleUpdate_step (by decide) (by decide +kernel)
  have second : Step sampleFirst sampleSecond :=
    sampleUpdate_step (by decide +kernel) (by decide +kernel)
  have third : Step sampleSecond sampleThird :=
    sampleUpdate_step (by decide +kernel) (by decide +kernel)
  have fourth : Step sampleThird sampleFourth :=
    sampleUpdate_step (by decide +kernel) (by decide +kernel)
  have fifth : Step sampleFourth sampleFifth :=
    sampleUpdate_step (by decide +kernel) (by decide +kernel)
  have sixth : Step sampleFifth sampleSixth :=
    sampleNext_step (by decide +kernel) (by decide +kernel)
  have seventh : Step sampleSixth sampleSeventh :=
    sampleNext_step (by decide +kernel) (by decide +kernel)
  have eighth : Step sampleSeventh sampleEighth :=
    sampleNext_step (by decide +kernel) (by decide +kernel)
  have ninth : Step sampleEighth sampleNinth :=
    sampleNext_step (by decide +kernel) (by decide +kernel)
  have tenth : Step sampleNinth sampleTenth :=
    sampleNext_step (by decide +kernel) (by decide +kernel)
  have inserted : GuardedRun Step (fun _ w' => w'.Near) (World.start false) sampleFifth :=
    ((((made.tail ⟨first, by decide +kernel⟩).tail ⟨second, by decide +kernel⟩).tail
      ⟨third, by decide +kernel⟩).tail ⟨fourth, by decide +kernel⟩).tail
      ⟨fifth, by decide +kernel⟩
  have out : GuardedRun Step (fun _ w' => w'.Near) (World.start false) sampleTenth :=
    ((((inserted.tail ⟨sixth, by decide +kernel⟩).tail ⟨seventh, by decide +kernel⟩).tail
      ⟨eighth, by decide +kernel⟩).tail ⟨ninth, by decide +kernel⟩).tail
      ⟨tenth, by decide +kernel⟩
  exact absurd (always sampleTenth out) (by decide +kernel)

end Bunx.Timer
