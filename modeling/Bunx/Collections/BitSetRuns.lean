/-
Module: Bunx.Collections.BitSetRuns
Purpose: Over whole runs of calls on several bit sets, every answer is the one the finite sets
  give, and the words hold exactly the members.
Trusted boundary: none
Main exports: BitSetOp.perform, BitSetOp.Performs, BitSetTrace, ReferenceTrace, call_performs,
  bitSets_are_sets
-/
import Bunx.Collections.BitSetQueries
import Bunx.Collections.BitSetResize

namespace Bunx.Collections

open Lib

/-- The reference sets under their numbers. -/
abbrev ReferenceSets := Nat → ReferenceSet

namespace BitSetOp

/-- The call on the finite sets. -/
def perform (op : BitSetOp) (refs : ReferenceSets) : BitSetAnswer × ReferenceSets :=
  let become (k : Nat) (members : Finset Nat) : BitSetAnswer × ReferenceSets :=
    (.done, Function.update refs k ⟨(refs k).length, members⟩)
  match op with
  | init k bitLength fill _ =>
      (.done, Function.update refs k ⟨bitLength, if fill then Finset.range bitLength else ∅⟩)
  | resize k newLen fill _ => (.done, Function.update refs k ((refs k).resize newLen fill))
  | setBit k i => become k (insert i (refs k).members)
  | unset k i => become k ((refs k).members.erase i)
  | toggle k i => become k (symmDiff (refs k).members {i})
  | setValue k i value =>
      become k (if value then insert i (refs k).members else (refs k).members.erase i)
  | setRangeValue k start stop value =>
      become k (if value then (refs k).members ∪ Finset.Ico start stop
        else (refs k).members \ Finset.Ico start stop)
  | setAll k value => become k (if value then Finset.range (refs k).length else ∅)
  | toggleAll k => become k (Finset.range (refs k).length \ (refs k).members)
  | toggleSet k j => become k (symmDiff (refs k).members (refs j).members)
  | copyInto k j => become k ((refs j).members.filter (· < (refs k).length))
  | setUnion k j => become k ((refs k).members ∪ (refs j).members)
  | setIntersection k j => become k ((refs k).members ∩ (refs j).members)
  | setExclude k j => become k ((refs k).members \ (refs j).members)
  | toggleFirstSet k =>
      (.index (refs k).ascending.head?, Function.update refs k (refs k).eraseFirst)
  | isSet k i => (.bool (decide (i ∈ (refs k).members)), refs)
  | count k => (.number (refs k).members.card, refs)
  | findFirstSet k => (.index (refs k).ascending.head?, refs)
  | eql k j => (.bool (decide (refs k = refs j)), refs)
  | subsetOf k j =>
      (.bool (decide ((refs k).length = (refs j).length ∧ (refs k).members ⊆ (refs j).members)),
        refs)
  | iterate k kindSet dirFwd => (.indices (some ((refs k).visits kindSet dirFwd)), refs)

/-- The call asks for more words and the allocator refuses. -/
def Refused (op : BitSetOp) (refs : ReferenceSets) : Prop :=
  match op with
  | init _ bitLength _ grant => grant = none ∧ 0 < bitLength
  | resize k newLen _ grant => grant = none ∧ numMasks (refs k).length < numMasks newLen
  | _ => False

/-- The finite sets answer the call, or it is refused and leaves them as they were. -/
def Performs (op : BitSetOp) (refs : ReferenceSets) (answer : BitSetAnswer)
    (refs' : ReferenceSets) : Prop :=
  (answer, refs') = op.perform refs ∨ (op.Refused refs ∧ answer = .allocError ∧ refs' = refs)

end BitSetOp

/-- A run of calls with their answers; the callers keep to what is allowed. -/
inductive BitSetTrace : BitSets → List (BitSetOp × BitSetAnswer) → BitSets → Prop where
  | done {sets : BitSets} : BitSetTrace sets [] sets
  | call {sets next final : BitSets} {op : BitSetOp} {answer : BitSetAnswer}
      {events : List (BitSetOp × BitSetAnswer)} (allowed : op.Allowed sets)
      (called : op.call sets = (answer, next)) (rest : BitSetTrace next events final) :
      BitSetTrace sets ((op, answer) :: events) final

/-- The same on the finite sets. -/
inductive ReferenceTrace : ReferenceSets → List (BitSetOp × BitSetAnswer) → ReferenceSets → Prop
    where
  | done {refs : ReferenceSets} : ReferenceTrace refs [] refs
  | call {refs next final : ReferenceSets} {op : BitSetOp} {answer : BitSetAnswer}
      {events : List (BitSetOp × BitSetAnswer)} (performs : op.Performs refs answer next)
      (rest : ReferenceTrace next events final) :
      ReferenceTrace refs ((op, answer) :: events) final

variable {sets : BitSets} {refs : ReferenceSets}

/-- Both sides change one set. -/
theorem represents_update (reps : ∀ k, Represents (sets k) (refs k)) {k : Nat}
    {fresh : DynamicBitSetUnmanaged} {r : ReferenceSet} (rep : Represents fresh r) :
    ∀ j, Represents (Function.update sets k fresh j) (Function.update refs k r j) := by
  intro j
  by_cases same : j = k
  · rw [same, Function.update_self, Function.update_self]
    exact rep
  · rw [Function.update_of_ne same, Function.update_of_ne same]
    exact reps j

/-- An allocating call, served or refused. -/
theorem allocated_performs (reps : ∀ k, Represents (sets k) (refs k)) {op : BitSetOp} {k : Nat}
    {result : Option DynamicBitSetUnmanaged} {r : ReferenceSet}
    (isCall : op.call sets = BitSetOp.allocated sets k result)
    (isPerform : op.perform refs = (.done, Function.update refs k r))
    (served : ∀ fresh, result = some fresh → Represents fresh r)
    (refused : result = none → op.Refused refs) :
    ∃ refs', op.Performs refs (op.call sets).1 refs' ∧
      ∀ j, Represents ((op.call sets).2 j) (refs' j) := by
  rw [isCall]
  cases result with
  | some fresh =>
      exact ⟨_, .inl isPerform.symm, represents_update reps (served fresh rfl)⟩
  | none =>
      exact ⟨refs, .inr ⟨refused rfl, rfl, rfl⟩, reps⟩

/-- Every call on the words is the call on the members. -/
theorem call_performs (reps : ∀ k, Represents (sets k) (refs k)) (op : BitSetOp)
    (allowed : op.Allowed sets) :
    ∃ refs', op.Performs refs (op.call sets).1 refs' ∧
      ∀ k, Represents ((op.call sets).2 k) (refs' k) := by
  -- calls that always succeed
  have plain : ∀ {answer : BitSetAnswer} {k : Nat} {fresh : DynamicBitSetUnmanaged}
      {r : ReferenceSet}, op.call sets = (answer, Function.update sets k fresh) →
      op.perform refs = (answer, Function.update refs k r) → Represents fresh r →
      ∃ refs', op.Performs refs (op.call sets).1 refs' ∧
        ∀ k, Represents ((op.call sets).2 k) (refs' k) := by
    intro answer k fresh r isCall isPerform rep
    rw [isCall]
    exact ⟨_, .inl isPerform.symm, represents_update reps rep⟩
  -- calls that change nothing
  have query : ∀ {answer : BitSetAnswer}, op.call sets = (answer, sets) →
      op.perform refs = (answer, refs) →
      ∃ refs', op.Performs refs (op.call sets).1 refs' ∧
        ∀ k, Represents ((op.call sets).2 k) (refs' k) := by
    intro answer isCall isPerform
    rw [isCall]
    exact ⟨refs, .inl isPerform.symm, reps⟩
  cases op with
  | init k bitLength fill grant =>
      apply allocated_performs reps rfl rfl
      · intro fresh isFresh
        have resized : DynamicBitSetUnmanaged.empty.resize bitLength fill grant = some fresh := by
          cases fill with
          | false => exact isFresh
          | true => exact isFresh
        have rep := represents_resize represents_empty resized
        have same : ReferenceSet.empty.resize bitLength fill =
            ⟨bitLength, if fill then Finset.range bitLength else ∅⟩ := by
          unfold ReferenceSet.resize ReferenceSet.empty
          cases fill with
          | false => simp
          | true => simp only [Finset.filter_empty, Finset.empty_union, if_true,
              Finset.range_eq_Ico]
        rwa [same] at rep
      · intro isNone
        have resized : DynamicBitSetUnmanaged.empty.resize bitLength fill grant = none := by
          cases fill with
          | false => exact isNone
          | true => exact isNone
        obtain ⟨noGrant, more⟩ := resize_refused represents_empty resized
        exact ⟨noGrant, numMasks_pos.mp (Nat.lt_of_le_of_lt (Nat.zero_le _) more)⟩
  | resize k newLen fill grant =>
      exact allocated_performs reps rfl rfl (fun _ => represents_resize (reps k))
        (resize_refused (reps k))
  | setBit k i => exact plain rfl rfl (represents_set (reps k) allowed)
  | unset k i => exact plain rfl rfl (represents_unset (reps k) allowed)
  | toggle k i => exact plain rfl rfl (represents_toggle (reps k) allowed)
  | setValue k i value => exact plain rfl rfl (represents_setValue (reps k) value allowed)
  | setRangeValue k start stop value =>
      exact plain rfl rfl (represents_setRangeValue (reps k) value allowed.1 allowed.2)
  | setAll k value => exact plain rfl rfl (represents_setAll (reps k) value)
  | toggleAll k => exact plain rfl rfl (represents_toggleAll (reps k))
  | toggleSet k j => exact plain rfl rfl (represents_toggleSet (reps k) (reps j) allowed)
  | copyInto k j => exact plain rfl rfl (represents_copyInto (reps k) (reps j) allowed)
  | setUnion k j => exact plain rfl rfl (represents_setUnion (reps k) (reps j) allowed)
  | setIntersection k j =>
      exact plain rfl rfl (represents_setIntersection (reps k) (reps j) allowed)
  | setExclude k j => exact plain rfl rfl (represents_setExclude (reps k) (reps j) allowed)
  | toggleFirstSet k =>
      obtain ⟨first, rep⟩ := represents_toggleFirstSet (reps k)
      apply plain rfl _ rep
      rw [first]
      rfl
  | isSet k i =>
      apply query rfl
      rw [isSet_eq (reps k) i]
      rfl
  | count k =>
      apply query rfl
      rw [count_eq (reps k)]
      rfl
  | findFirstSet k =>
      apply query rfl
      rw [findFirstSet_eq (reps k)]
      rfl
  | eql k j =>
      apply query rfl
      rw [eql_eq (reps k) (reps j)]
      rfl
  | subsetOf k j =>
      apply query rfl
      rw [subsetOf_eq (reps k) (reps j)]
      rfl
  | iterate k kindSet dirFwd =>
      apply query rfl
      rw [iterator_exhausts (reps k) kindSet dirFwd]
      rfl

/-- A run of calls is a run on the finite sets, with the same answers. -/
theorem trace_performs {events : List (BitSetOp × BitSetAnswer)} {final : BitSets}
    (run : BitSetTrace sets events final) : ∀ {refs : ReferenceSets},
      (∀ k, Represents (sets k) (refs k)) →
      ∃ refs', ReferenceTrace refs events refs' ∧ ∀ k, Represents (final k) (refs' k) := by
  induction run with
  | done =>
      intro refs reps
      exact ⟨refs, .done, reps⟩
  | call allowed called _ ih =>
      intro refs reps
      obtain ⟨middle, performs, reps'⟩ := call_performs reps _ allowed
      rw [called] at performs reps'
      obtain ⟨refs', traced, reps''⟩ := ih reps'
      exact ⟨refs', .call performs traced, reps''⟩

/-- Dynamic bit sets are sets. -/
theorem bitSets_are_sets {events : List (BitSetOp × BitSetAnswer)} {final : BitSets}
    (run : BitSetTrace (fun _ => .empty) events final) :
    ∃ refs, ReferenceTrace (fun _ => .empty) events refs ∧
      ∀ k, Represents (final k) (refs k) ∧
        ∀ i, (final k).bitLength ≤ i → bitIn (final k).masksSlice i = false := by
  obtain ⟨refs, traced, reps⟩ := trace_performs run fun _ => represents_empty
  exact ⟨refs, traced, fun k => ⟨reps k, fun _ past => (reps k).padding past⟩⟩

/-- Seventy bits, all set, then one cleared. -/
def sampleBitSets : BitSets :=
  ((BitSetOp.unset 0 65).call
    ((BitSetOp.init 0 70 true (some [])).call fun _ => .empty).2).2

theorem bitSets_are_sets_sample :
    ∃ refs, ReferenceTrace (fun _ => .empty)
        [(.init 0 70 true (some []), .done), (.unset 0 65, .done)] refs ∧
      ∀ k, Represents (sampleBitSets k) (refs k) ∧
        ∀ i, (sampleBitSets k).bitLength ≤ i → bitIn (sampleBitSets k).masksSlice i = false :=
  bitSets_are_sets (.call trivial rfl (.call (show 65 < 70 by decide) rfl .done))

end Bunx.Collections
