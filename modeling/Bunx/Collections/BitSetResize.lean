/-
Module: Bunx.Collections.BitSetResize
Purpose: Resizing a bit set: the members below the new length stay, what is gained is filled
  or not, and the padding is zero again, whatever the allocator answers.
Trusted boundary: none
Main exports: bitIn_realloc, represents_resize, resize_refused
-/
import Bunx.Collections.BitSetMembers

namespace Bunx.Collections

open Lib

variable {s : DynamicBitSetUnmanaged} {r : ReferenceSet}

/-- A served request has room for the new words and keeps the old ones. -/
theorem bitIn_realloc {masks moved : List Word} {newMasks : Nat} {grant : Grant}
    (served : realloc masks newMasks grant = some moved) :
    newMasks ≤ moved.length ∧ ∀ i, i < 64 * newMasks → i < 64 * masks.length →
      bitIn moved i = bitIn masks i := by
  unfold realloc at served
  split at served
  · rename_i sameSize
    cases served
    exact ⟨Nat.le_of_eq sameSize.symm, fun _ _ _ => rfl⟩
  · cases grant with
    | some fresh =>
        cases served
        constructor
        · rw [List.length_take, List.length_append, List.length_replicate]
          omega
        · intro i small held
          rw [bitIn_take small, List.append_assoc, bitIn_append_low held]
    | none =>
        dsimp only at served
        split at served
        · cases served
        · rename_i enough
          cases served
          exact ⟨Nat.le_of_not_lt enough, fun _ _ _ => rfl⟩

/-- The words of `resize` before the last one is trimmed. -/
def grown (oldLen newLen : Nat) (fill : Bool) (masks : List Word) : List Word :=
  if newLen > oldLen then
    let masks :=
      if fill && decide (numMasks oldLen > 0) then
        masks.modify (numMasks oldLen - 1) fun mask =>
          mask ||| ~~~lastItemMask (numMasks oldLen) oldLen
      else masks
    if numMasks newLen > numMasks oldLen then
      fillMasks masks (numMasks oldLen) (numMasks newLen) (boolMaskUsize fill)
    else masks
  else masks

theorem resize_eq (newLen : Nat) (fill : Bool) (grant : Grant) (positive : numMasks newLen ≠ 0) :
    s.resize newLen fill grant = (realloc s.masks (numMasks newLen) grant).map fun masks =>
      ⟨newLen, DynamicBitSetUnmanaged.trimLast newLen (grown s.bitLength newLen fill masks)⟩ := by
  have isLong : newLen > 0 := numMasks_pos.mp (Nat.pos_of_ne_zero positive)
  unfold DynamicBitSetUnmanaged.resize
  dsimp only
  rw [if_neg positive]
  congr 1
  funext masks
  rw [if_pos isLong]
  rfl

/-- The padding of the old last word is filled. -/
theorem bitIn_fillPadding {masks : List Word} {oldLen i : Nat} (fill : Bool)
    (held : numMasks oldLen ≤ masks.length) (small : i < 64 * numMasks oldLen) :
    bitIn (if fill && decide (numMasks oldLen > 0) then
        masks.modify (numMasks oldLen - 1) fun mask =>
          mask ||| ~~~lastItemMask (numMasks oldLen) oldLen
      else masks) i = (bitIn masks i || (fill && decide (oldLen ≤ i))) := by
  have some_ : 0 < numMasks oldLen := by omega
  have positive := numMasks_pos.mp some_
  have covers : 64 * (numMasks oldLen - 1) < oldLen := by
    unfold numMasks
    omega
  cases fill with
  | false => simp
  | true =>
      rw [decide_eq_true some_, Bool.and_true, if_pos rfl, bitIn_modify]
      by_cases here : i / 64 = numMasks oldLen - 1
      · rw [if_pos ⟨here, by omega⟩, BitVec.getLsbD_or, BitVec.getLsbD_not,
          lastItemMask_getLsbD positive, decide_eq_true (Nat.mod_lt _ (by decide)), ← here, ← bitIn,
          Bool.true_and, Bool.true_and, ← decide_not]
        congr 1
        apply decide_eq_decide.mpr
        omega
      · have below : ¬oldLen ≤ i := by omega
        rw [if_neg (fun both => here both.1)]
        simp [below]

/-- What `resize` leaves below the new length. -/
theorem bitIn_grown {masks : List Word} {oldLen newLen i : Nat} (fill : Bool)
    (held : numMasks newLen ≤ masks.length) (small : i < newLen)
    (padding : ∀ j, oldLen ≤ j → j < 64 * numMasks oldLen → j < 64 * numMasks newLen →
      bitIn masks j = false) :
    bitIn (grown oldLen newLen fill masks) i = if i < oldLen then bitIn masks i else fill := by
  have covers := numMasks_covers newLen
  unfold grown
  by_cases grows : newLen > oldLen
  · have fewer : numMasks oldLen ≤ numMasks newLen := by
      unfold numMasks
      omega
    have oldCovers := numMasks_covers oldLen
    rw [if_pos grows]
    dsimp only
    -- the old words with their padding filled
    have oldWords : ∀ j, j < 64 * numMasks oldLen →
        bitIn (if fill && decide (numMasks oldLen > 0) then
            masks.modify (numMasks oldLen - 1) fun mask =>
              mask ||| ~~~lastItemMask (numMasks oldLen) oldLen
          else masks) j = if j < oldLen then bitIn masks j else fill := by
      intro j inOld
      rw [bitIn_fillPadding fill (by omega) inOld]
      by_cases below : j < oldLen
      · rw [if_pos below]
        simp [Nat.not_le.mpr below]
      · rw [if_neg below, padding j (by omega) inOld (by omega)]
        simp [Nat.le_of_not_lt below]
    have long : (if fill && decide (numMasks oldLen > 0) then
        masks.modify (numMasks oldLen - 1) fun mask =>
          mask ||| ~~~lastItemMask (numMasks oldLen) oldLen
      else masks).length = masks.length := by
      split
      · exact List.length_modify _ _ _
      · rfl
    by_cases moreWords : numMasks newLen > numMasks oldLen
    · rw [if_pos moreWords, bitIn_fillMasks (by rw [long]; omega),
        boolMaskUsize_getLsbD _ (Nat.mod_lt _ (by decide))]
      by_cases isNew : numMasks oldLen ≤ i / 64 ∧ i / 64 < numMasks newLen
      · rw [if_pos isNew, if_neg (by omega)]
      · rw [if_neg isNew, oldWords i (by omega)]
    · rw [if_neg moreWords, oldWords i (by omega)]
  · rw [if_neg grows, if_pos (by omega)]

/-- Resizing is resizing the reference set. -/
theorem represents_resize (rep : Represents s r) {newLen : Nat} {fill : Bool} {grant : Grant}
    {resized : DynamicBitSetUnmanaged} (served : s.resize newLen fill grant = some resized) :
    Represents resized (r.resize newLen fill) := by
  by_cases isEmpty : numMasks newLen = 0
  · have noLength : newLen = 0 := by
      unfold numMasks at isEmpty
      omega
    subst noLength
    rw [DynamicBitSetUnmanaged.resize, if_pos isEmpty] at served
    cases served
    have noMembers : r.resize 0 fill = .empty := by
      cases fill with
      | false => simp [ReferenceSet.resize, ReferenceSet.empty]
      | true => simp [ReferenceSet.resize, ReferenceSet.empty]
    rw [noMembers]
    exact represents_empty
  · rw [resize_eq newLen fill grant isEmpty] at served
    obtain ⟨masks, isServed, rfl⟩ := Option.map_eq_some_iff.mp served
    obtain ⟨held, kept⟩ := bitIn_realloc isServed
    have positive : 0 < newLen := numMasks_pos.mp (Nat.pos_of_ne_zero isEmpty)
    have grownHeld : (grown s.bitLength newLen fill masks).length = masks.length := by
      unfold grown
      split
      · dsimp only
        split
        · rw [fillMasks_length]
          split
          · exact List.length_modify _ _ _
          · rfl
        · split
          · exact List.length_modify _ _ _
          · rfl
      · rfl
    -- the old words, read through the new allocation
    have oldBits : ∀ j, j < 64 * numMasks newLen → j < 64 * numMasks s.bitLength →
        bitIn masks j = decide (j ∈ r.members) := by
      intro j inNew inOld
      have oldHeld := rep.held
      rw [kept j inNew (by omega), ← rep.bits, DynamicBitSetUnmanaged.masksSlice,
        bitIn_take inOld]
    have padding : ∀ j, s.bitLength ≤ j → j < 64 * numMasks s.bitLength →
        j < 64 * numMasks newLen → bitIn masks j = false := by
      intro j past inOld inNew
      rw [oldBits j inNew inOld, ← rep.bits, rep.padding past]
    have inside : ∀ i ∈ (r.resize newLen fill).members, i < newLen := by
      intro i isMember
      rcases Finset.mem_union.mp isMember with old | new
      · exact (Finset.mem_filter.mp old).2
      · cases fill with
        | false => simp at new
        | true => exact (Finset.mem_Ico.mp new).2
    refine ⟨rfl, ?_, inside, ?_⟩
    · show numMasks newLen ≤ (DynamicBitSetUnmanaged.trimLast newLen _).length
      rw [DynamicBitSetUnmanaged.trimLast, List.length_modify, grownHeld]
      exact held
    · intro i
      show bitIn ((DynamicBitSetUnmanaged.trimLast newLen _).take (numMasks newLen)) i = _
      have covers := numMasks_covers newLen
      by_cases inWords : i < 64 * numMasks newLen
      · rw [bitIn_take inWords, bitIn_trimLast positive (by rw [grownHeld]; exact held) inWords]
        by_cases small : i < newLen
        · rw [bitIn_grown fill held small padding, decide_eq_true small, Bool.and_true]
          have oldCovers := numMasks_covers s.bitLength
          by_cases old : i < s.bitLength
          · have oldInside : i < r.length := by
              rw [← rep.sameLength]
              exact old
            rw [if_pos old, oldBits i inWords (by omega)]
            cases fill with
            | false => simp [ReferenceSet.resize, small]
            | true => simp [ReferenceSet.resize, small, oldInside]
          · have past : r.length ≤ i := by
              rw [← rep.sameLength]
              omega
            have noMember : i ∉ r.members := by
              intro isMember
              have := rep.inside i isMember
              omega
            rw [if_neg old]
            cases fill with
            | false => simp [ReferenceSet.resize, noMember]
            | true => simp [ReferenceSet.resize, noMember, small, past]
        · have noMember : i ∉ (r.resize newLen fill).members := fun isMember =>
            small (inside i isMember)
          simp [small, noMember]
      · have noMember : i ∉ (r.resize newLen fill).members := by
          intro isMember
          have := inside i isMember
          omega
        rw [decide_eq_false noMember]
        apply bitIn_outside
        rw [List.length_take]
        omega

/-- `AllocError`: more words were needed and the allocator refused. -/
theorem resize_refused (rep : Represents s r) {newLen : Nat} {fill : Bool} {grant : Grant}
    (refused : s.resize newLen fill grant = none) :
    grant = none ∧ numMasks r.length < numMasks newLen := by
  by_cases isEmpty : numMasks newLen = 0
  · rw [DynamicBitSetUnmanaged.resize, if_pos isEmpty] at refused
    cases refused
  · rw [resize_eq newLen fill grant isEmpty, Option.map_eq_none_iff] at refused
    unfold realloc at refused
    split at refused
    · cases refused
    · cases grant with
      | some fresh => cases refused
      | none =>
          dsimp only at refused
          split at refused
          · rename_i more
            have held := rep.held
            rw [rep.sameLength] at held
            exact ⟨rfl, Nat.lt_of_le_of_lt held more⟩
          · cases refused

end Bunx.Collections
