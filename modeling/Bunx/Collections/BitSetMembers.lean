/-
Module: Bunx.Collections.BitSetMembers
Purpose: A bit set against the finite set it stands for: every operation on the words is the
  operation on the members, and the padding of the last word stays zero.
Trusted boundary: none
Main exports:
  ReferenceSet, Represents, Represents.padding, represents_resize, represents_setRangeValue,
  represents_toggleFirstSet, count_eq, findFirstSet_eq, eql_eq, subsetOf_eq
-/
import Mathlib.Data.Finset.SymmDiff
import Mathlib.Order.Interval.Finset.Nat
import Bunx.Collections.BitSet

namespace Bunx.Collections

open Lib

/-- A finite set of numbers below a length. -/
structure ReferenceSet where
  length : Nat
  members : Finset Nat
deriving DecidableEq

namespace ReferenceSet

/-- The empty set of length zero. -/
def empty : ReferenceSet := ⟨0, ∅⟩

/-- The new length; what is gained is filled. -/
def resize (r : ReferenceSet) (newLen : Nat) (fill : Bool) : ReferenceSet :=
  ⟨newLen, r.members.filter (· < newLen) ∪ if fill then Finset.Ico r.length newLen else ∅⟩

/-- The members in ascending order. -/
def ascending (r : ReferenceSet) : List Nat := (List.range r.length).filter (· ∈ r.members)

/-- The numbers below the length that are no members, in ascending order. -/
def absent (r : ReferenceSet) : List Nat := (List.range r.length).filter (· ∉ r.members)

end ReferenceSet

/-- The words hold exactly the members; a word past the length holds none. -/
structure Represents (s : DynamicBitSetUnmanaged) (r : ReferenceSet) : Prop where
  sameLength : s.bitLength = r.length
  held : numMasks s.bitLength ≤ s.masks.length
  inside : ∀ i ∈ r.members, i < r.length
  bits : ∀ i, bitIn s.masksSlice i = decide (i ∈ r.members)

variable {s other : DynamicBitSetUnmanaged} {r r' : ReferenceSet}

/-- The padding bits of the last word are zero. -/
theorem Represents.padding (rep : Represents s r) {i : Nat} (past : s.bitLength ≤ i) :
    bitIn s.masksSlice i = false := by
  rw [rep.bits]
  apply decide_eq_false
  intro isMember
  have := rep.inside i isMember
  rw [← rep.sameLength] at this
  omega

theorem Represents.slice_length (rep : Represents s r) :
    s.masksSlice.length = numMasks s.bitLength := by
  rw [DynamicBitSetUnmanaged.masksSlice, List.length_take, Nat.min_eq_left rep.held]

/-- The words reach up to the length. -/
theorem numMasks_covers (bitLength : Nat) : bitLength ≤ 64 * numMasks bitLength := by
  unfold numMasks
  omega

theorem numMasks_pos {bitLength : Nat} : 0 < numMasks bitLength ↔ 0 < bitLength := by
  unfold numMasks
  omega

theorem represents_empty : Represents .empty .empty where
  sameLength := rfl
  held := Nat.le_refl 0
  inside := by simp [ReferenceSet.empty]
  bits := fun i => bitIn_nil i

/-! ### Single words -/

theorem boolMaskUsize_getLsbD (value : Bool) {j : Nat} (small : j < 64) :
    (boolMaskUsize value).getLsbD j = value := by
  cases value with
  | false => exact BitVec.getLsbD_zero
  | true =>
      rw [boolMaskUsize, if_pos rfl, BitVec.getLsbD_allOnes]
      exact decide_eq_true small

theorem wordMaskBit_getLsbD (index : Nat) {j : Nat} (small : j < 64) :
    (wordMaskBit index).getLsbD j = decide (j = index % 64) := by
  unfold wordMaskBit
  rw [BitVec.getLsbD_shiftLeft, BitVec.getLsbD_one]
  by_cases same : j = index % 64
  · simp [same]
    omega
  · have other : ¬(index % 64 ≤ j ∧ j - index % 64 = 0) := by omega
    simp [same, small]
    omega

/-- The bits of a word from `startBit` on. -/
theorem maskFrom_getLsbD (value : Bool) (startBit : Nat) {j : Nat} (small : j < 64) :
    (boolMaskUsize value <<< startBit).getLsbD j = (decide (startBit ≤ j) && value) := by
  rw [BitVec.getLsbD_shiftLeft, decide_eq_true small, Bool.true_and]
  by_cases before : j < startBit
  · simp [before]
  · have after : startBit ≤ j := by omega
    rw [boolMaskUsize_getLsbD value (by omega)]
    simp [after]

/-- The bits of a word before `endBit`. -/
theorem maskBelow_getLsbD (value : Bool) {endBit j : Nat} (positive : 0 < endBit)
    (atMost : endBit ≤ 64) :
    (boolMaskUsize value >>> (63 - (endBit - 1))).getLsbD j = (decide (j < endBit) && value) := by
  rw [BitVec.getLsbD_ushiftRight]
  by_cases below : j < endBit
  · rw [boolMaskUsize_getLsbD value (by omega)]
    simp [below]
  · rw [BitVec.getLsbD_of_ge _ _ (by omega)]
    simp [below]

theorem lastItemMask_getLsbD {bitLength j : Nat} (positive : 0 < bitLength) :
    (lastItemMask (numMasks bitLength) bitLength).getLsbD j =
      decide (64 * (numMasks bitLength - 1) + j < bitLength) := by
  have covers : numMasks bitLength * 64 < bitLength + 64 ∧ bitLength ≤ numMasks bitLength * 64 := by
    unfold numMasks
    omega
  have some_ := numMasks_pos.mpr positive
  unfold lastItemMask
  rw [BitVec.getLsbD_ushiftRight, BitVec.getLsbD_allOnes]
  apply decide_eq_decide.mpr
  omega

/-! ### Writes to the words -/

theorem bitIn_fillMasks {masks : List Word} {first past i : Nat} {value : Word}
    (inside : i < 64 * masks.length) :
    bitIn (fillMasks masks first past value) i =
      if first ≤ i / 64 ∧ i / 64 < past then value.getLsbD (i % 64) else bitIn masks i := by
  rw [fillMasks, bitIn_mapIdx inside]
  by_cases filled : first ≤ i / 64 ∧ i / 64 < past
  · rw [if_pos filled, if_pos filled]
  · rw [if_neg filled, if_neg filled, bitIn]

@[simp] theorem fillMasks_length (masks : List Word) (first past : Nat) (value : Word) :
    (fillMasks masks first past value).length = masks.length := by
  simp [fillMasks]

@[simp] theorem setRangeValueMasks_length (masks : List Word) (start stop : Nat) (value : Bool) :
    (setRangeValueMasks masks start stop value).length = masks.length := by
  unfold setRangeValueMasks
  dsimp only
  split_ifs <;> simp

/-- A range inside one word. -/
theorem bitIn_range_oneWord {masks : List Word} {start stop : Nat} (value : Bool)
    (isRange : start < stop) (oneWord : start / 64 = stop / 64)
    {i : Nat} (inside : i < 64 * masks.length) :
    bitIn (setRangeValueMasks masks start stop value) i =
      if start ≤ i ∧ i < stop then value else bitIn masks i := by
  have small : i % 64 < 64 := Nat.mod_lt _ (by decide)
  have endBit : 0 < stop % 64 := by omega
  unfold setRangeValueMasks
  rw [if_neg (Nat.ne_of_lt isRange)]
  dsimp only [wordMaskIndex]
  rw [if_pos oneWord, List.modify_modify_eq, bitIn_modify]
  by_cases here : i / 64 = start / 64
  · rw [if_pos ⟨here, by omega⟩]
    dsimp only [Function.comp]
    rw [BitVec.getLsbD_or, BitVec.getLsbD_and, BitVec.getLsbD_not, BitVec.getLsbD_and,
      BitVec.getLsbD_and, maskFrom_getLsbD _ _ small, maskFrom_getLsbD _ _ small,
      maskBelow_getLsbD _ endBit (by omega), maskBelow_getLsbD _ endBit (by omega),
      decide_eq_true small, ← here, ← bitIn]
    by_cases inRange : start ≤ i ∧ i < stop
    · have from_ : start % 64 ≤ i % 64 := by omega
      have below : i % 64 < stop % 64 := by omega
      rw [if_pos inRange]
      simp [from_, below]
    · rw [if_neg inRange]
      by_cases from_ : start % 64 ≤ i % 64
      · have past : ¬i % 64 < stop % 64 := by omega
        simp [from_, past]
      · simp [from_]
  · rw [if_neg (fun both => here both.1), if_neg (by omega)]

/-- A range over several words: the end of the first one, whole words and the start of the
last one. -/
theorem bitIn_range_words {masks : List Word} {start stop : Nat} (value : Bool)
    (isRange : start < stop) (fits : stop ≤ 64 * masks.length) (words : start / 64 ≠ stop / 64)
    {i : Nat} (inside : i < 64 * masks.length) :
    bitIn (setRangeValueMasks masks start stop value) i =
      if start ≤ i ∧ i < stop then value else bitIn masks i := by
  have small : i % 64 < 64 := Nat.mod_lt _ (by decide)
  unfold setRangeValueMasks
  rw [if_neg (Nat.ne_of_lt isRange)]
  dsimp only [wordMaskIndex]
  rw [if_neg words]
  -- the first word and the whole words
  have bulk : ∀ bulk : List Word × Nat,
      bulk = (if start % 64 > 0 then
          (masks.modify (start / 64) fun mask =>
            (mask &&& ~~~(boolMaskUsize true <<< (start % 64))) |||
              (boolMaskUsize value <<< (start % 64)),
            start / 64 + 1)
        else (masks, start / 64)) →
      bulk.1.length = masks.length ∧
        bitIn (fillMasks bulk.1 bulk.2 (stop / 64) (boolMaskUsize value)) i =
          if start ≤ i ∧ i / 64 < stop / 64 then value else bitIn masks i := by
    intro bulk isBulk
    by_cases aligned : start % 64 > 0
    · rw [if_pos aligned] at isBulk
      subst isBulk
      have long : (masks.modify (start / 64) fun mask =>
          (mask &&& ~~~(boolMaskUsize true <<< (start % 64))) |||
            (boolMaskUsize value <<< (start % 64))).length = masks.length := List.length_modify _ _ _
      refine ⟨long, ?_⟩
      rw [bitIn_fillMasks (by rw [long]; exact inside), bitIn_modify,
        boolMaskUsize_getLsbD value small]
      by_cases whole : start / 64 + 1 ≤ i / 64 ∧ i / 64 < stop / 64
      · rw [if_pos whole, if_pos (by omega)]
      · rw [if_neg whole]
        by_cases here : i / 64 = start / 64
        · rw [if_pos ⟨here, by omega⟩, BitVec.getLsbD_or, BitVec.getLsbD_and, BitVec.getLsbD_not,
            maskFrom_getLsbD _ _ small, maskFrom_getLsbD _ _ small, decide_eq_true small, ← here,
            ← bitIn]
          by_cases from_ : start % 64 ≤ i % 64
          · rw [if_pos (by omega)]
            simp [from_]
          · rw [if_neg (by omega)]
            simp [from_]
        · rw [if_neg (fun both => here both.1), if_neg (by omega)]
    · rw [if_neg aligned] at isBulk
      subst isBulk
      refine ⟨rfl, ?_⟩
      rw [bitIn_fillMasks inside, boolMaskUsize_getLsbD value small]
      by_cases whole : start / 64 ≤ i / 64 ∧ i / 64 < stop / 64
      · rw [if_pos whole, if_pos (by omega)]
      · rw [if_neg whole, if_neg (by omega)]
  obtain ⟨long, bulkBits⟩ := bulk _ rfl
  -- the last word
  by_cases aligned : stop % 64 > 0
  · rw [if_pos aligned, bitIn_modify]
    by_cases here : i / 64 = stop / 64
    · rw [if_pos ⟨here, by rw [fillMasks_length, long]; omega⟩, BitVec.getLsbD_or,
        BitVec.getLsbD_and, maskFrom_getLsbD _ _ small, maskBelow_getLsbD _ aligned (by omega),
        ← here, ← bitIn, here, bulkBits, if_neg (by omega)]
      by_cases below : i % 64 < stop % 64
      · rw [if_pos (by omega)]
        have notFrom : ¬stop % 64 ≤ i % 64 := by omega
        simp [below, notFrom]
      · rw [if_neg (by omega)]
        have from_ : stop % 64 ≤ i % 64 := by omega
        simp [below, from_]
    · rw [if_neg (fun both => here both.1), bulkBits]
      by_cases inRange : start ≤ i ∧ i < stop
      · rw [if_pos inRange, if_pos (by omega)]
      · rw [if_neg inRange, if_neg (by omega)]
  · rw [if_neg aligned, bulkBits]
    by_cases inRange : start ≤ i ∧ i < stop
    · rw [if_pos inRange, if_pos (by omega)]
    · rw [if_neg inRange, if_neg (by omega)]

/-- `set_range_value_masks` writes the range and nothing else. -/
theorem bitIn_setRangeValueMasks {masks : List Word} {start stop : Nat} (value : Bool)
    (isRange : start ≤ stop) (fits : stop ≤ 64 * masks.length) {i : Nat}
    (inside : i < 64 * masks.length) :
    bitIn (setRangeValueMasks masks start stop value) i =
      if start ≤ i ∧ i < stop then value else bitIn masks i := by
  rcases Nat.eq_or_lt_of_le isRange with same | proper
  · rw [setRangeValueMasks, if_pos same, if_neg (by omega)]
  · by_cases oneWord : start / 64 = stop / 64
    · exact bitIn_range_oneWord value proper oneWord inside
    · exact bitIn_range_words value proper fits oneWord inside

/-- Trimming the last word clears what is past the length. -/
theorem bitIn_trimLast {masks : List Word} {bitLength i : Nat} (positive : 0 < bitLength)
    (long : numMasks bitLength ≤ masks.length) (inside : i < 64 * numMasks bitLength) :
    bitIn (DynamicBitSetUnmanaged.trimLast bitLength masks) i =
      (bitIn masks i && decide (i < bitLength)) := by
  have some_ := numMasks_pos.mpr positive
  have covers : bitLength ≤ 64 * numMasks bitLength ∧ 64 * (numMasks bitLength - 1) < bitLength := by
    unfold numMasks
    omega
  unfold DynamicBitSetUnmanaged.trimLast
  rw [bitIn_modify]
  by_cases here : i / 64 = numMasks bitLength - 1
  · rw [if_pos ⟨here, by omega⟩, BitVec.getLsbD_and, lastItemMask_getLsbD positive, ← here,
      ← bitIn]
    congr 1
    apply decide_eq_decide.mpr
    omega
  · rw [if_neg (fun both => here both.1)]
    have isBefore : i < bitLength := by omega
    simp [isBefore]

/-! ### Operations on one set -/

/-- A write that keeps the number of words shows in the words. -/
theorem onMasks_slice (rep : Represents s r) {write : List Word → List Word}
    (long : (write s.masksSlice).length = s.masksSlice.length) :
    (s.onMasks write).masksSlice = write s.masksSlice := by
  unfold DynamicBitSetUnmanaged.masksSlice DynamicBitSetUnmanaged.onMasks
  dsimp only
  apply List.take_left'
  rw [long, rep.slice_length]

/-- A write to the words is known by its bits. -/
theorem Represents.onMasks (rep : Represents s r) {write : List Word → List Word}
    {members : Finset Nat} (long : (write s.masksSlice).length = s.masksSlice.length)
    (inside : ∀ i ∈ members, i < r.length)
    (bits : ∀ i, i < 64 * numMasks s.bitLength →
      bitIn (write s.masksSlice) i = decide (i ∈ members)) :
    Represents (s.onMasks write) ⟨r.length, members⟩ where
  sameLength := rep.sameLength
  held := by
    have held := rep.held
    have sliceLong := rep.slice_length
    show numMasks s.bitLength ≤
      (write s.masksSlice ++ s.masks.drop (numMasks s.bitLength)).length
    rw [List.length_append, List.length_drop]
    omega
  inside := inside
  bits := by
    intro i
    rw [onMasks_slice rep long]
    by_cases small : i < 64 * numMasks s.bitLength
    · exact bits i small
    · rw [bitIn_outside (by rw [long, rep.slice_length]; omega)]
      apply (decide_eq_false _).symm
      intro isMember
      have isInside := inside i isMember
      have covers := numMasks_covers s.bitLength
      rw [← rep.sameLength] at isInside
      omega

/-- A change of the bit at an index of the set. -/
theorem Represents.modifyBit (rep : Represents s r) {index : Nat} {members : Finset Nat}
    {f : Word → Word} (isIndex : index < s.bitLength) (inside : ∀ i ∈ members, i < r.length)
    (there : ∀ x : Word, ∀ j, j < 64 → (f x).getLsbD j =
      if j = index % 64 then decide (index ∈ members) else x.getLsbD j)
    (elsewhere : ∀ i, i ≠ index → (i ∈ members ↔ i ∈ r.members)) :
    Represents (s.onMasks fun masks => masks.modify (wordMaskIndex index) f)
      ⟨r.length, members⟩ := by
  refine rep.onMasks ?_ inside ?_
  · exact List.length_modify _ _ _
  intro i small
  have covers := numMasks_covers s.bitLength
  have isHeld : wordMaskIndex index < s.masksSlice.length := by
    rw [rep.slice_length]
    unfold wordMaskIndex
    omega
  rw [bitIn_modify]
  by_cases here : i / 64 = wordMaskIndex index
  · rw [if_pos ⟨here, isHeld⟩, there _ _ (Nat.mod_lt _ (by decide))]
    unfold wordMaskIndex at here
    by_cases same : i % 64 = index % 64
    · have isIt : i = index := by omega
      rw [if_pos same, isIt]
    · rw [if_neg same, wordMaskIndex, ← here, ← bitIn, rep.bits]
      apply decide_eq_decide.mpr
      exact (elsewhere i (by rintro rfl; exact same rfl)).symm
  · rw [if_neg (fun both => here both.1), rep.bits]
    apply decide_eq_decide.mpr
    exact (elsewhere i (by rintro rfl; exact here rfl)).symm

theorem represents_set (rep : Represents s r) {index : Nat} (isIndex : index < s.bitLength) :
    Represents (s.set index) ⟨r.length, insert index r.members⟩ := by
  apply rep.modifyBit isIndex
  · intro i isMember
    rcases Finset.mem_insert.mp isMember with rfl | old
    · rwa [← rep.sameLength]
    · exact rep.inside i old
  · intro x j small
    rw [BitVec.getLsbD_or, wordMaskBit_getLsbD _ small]
    by_cases here : j = index % 64
    · simp [here]
    · simp [here]
  · intro i other
    rw [Finset.mem_insert]
    exact or_iff_right other

theorem represents_unset (rep : Represents s r) {index : Nat} (isIndex : index < s.bitLength) :
    Represents (s.unset index) ⟨r.length, r.members.erase index⟩ := by
  apply rep.modifyBit isIndex
  · intro i isMember
    exact rep.inside i (Finset.mem_of_mem_erase isMember)
  · intro x j small
    rw [BitVec.getLsbD_and, BitVec.getLsbD_not, wordMaskBit_getLsbD _ small, decide_eq_true small]
    by_cases here : j = index % 64
    · simp [here]
    · simp [here]
  · intro i other
    rw [Finset.mem_erase]
    exact and_iff_right other

theorem represents_toggle (rep : Represents s r) {index : Nat} (isIndex : index < s.bitLength) :
    Represents (s.toggle index) ⟨r.length, symmDiff r.members {index}⟩ := by
  refine rep.onMasks ?_ ?_ ?_
  · exact List.length_modify _ _ _
  · intro i isMember
    rcases Finset.mem_symmDiff.mp isMember with old | new
    · exact rep.inside i old.1
    · rwa [Finset.mem_singleton.mp new.1, ← rep.sameLength]
  intro i small
  have covers := numMasks_covers s.bitLength
  have isHeld : wordMaskIndex index < s.masksSlice.length := by
    rw [rep.slice_length]
    unfold wordMaskIndex
    omega
  rw [bitIn_modify]
  by_cases here : i / 64 = wordMaskIndex index
  · rw [if_pos ⟨here, isHeld⟩, BitVec.getLsbD_xor, wordMaskBit_getLsbD _ (Nat.mod_lt _ (by decide)),
      ← here, ← bitIn, rep.bits]
    unfold wordMaskIndex at here
    by_cases same : i = index
    · subst same
      by_cases isMember : i ∈ r.members
      · simp [isMember, Finset.mem_symmDiff]
      · simp [isMember, Finset.mem_symmDiff]
    · have apart : ¬i % 64 = index % 64 := by omega
      simp [apart, same, Finset.mem_symmDiff]
  · have apart : i ≠ index := by
      rintro rfl
      exact here rfl
    rw [if_neg (fun both => here both.1), rep.bits]
    simp [apart, Finset.mem_symmDiff]

theorem represents_setValue (rep : Represents s r) {index : Nat} (value : Bool)
    (isIndex : index < s.bitLength) :
    Represents (s.setValue index value)
      ⟨r.length, if value then insert index r.members else r.members.erase index⟩ := by
  apply rep.modifyBit isIndex
  · intro i isMember
    cases value with
    | false => exact rep.inside i (Finset.mem_of_mem_erase isMember)
    | true =>
        rcases Finset.mem_insert.mp isMember with rfl | old
        · rwa [← rep.sameLength]
        · exact rep.inside i old
  · intro x j small
    rw [BitVec.getLsbD_or, BitVec.getLsbD_and, BitVec.getLsbD_not, BitVec.getLsbD_and,
      wordMaskBit_getLsbD _ small, boolMaskUsize_getLsbD _ small, decide_eq_true small]
    by_cases here : j = index % 64
    · cases value with
      | false => simp [here]
      | true => simp [here]
    · simp [here]
  · intro i other
    cases value with
    | false =>
        rw [if_neg Bool.false_ne_true, Finset.mem_erase]
        exact and_iff_right other
    | true =>
        rw [if_pos rfl, Finset.mem_insert]
        exact or_iff_right other

theorem represents_setRangeValue (rep : Represents s r) {start stop : Nat} (value : Bool)
    (isRange : start ≤ stop) (isInside : stop ≤ s.bitLength) :
    Represents (s.setRangeValue start stop value)
      ⟨r.length, if value then r.members ∪ Finset.Ico start stop
        else r.members \ Finset.Ico start stop⟩ := by
  have covers := numMasks_covers s.bitLength
  apply rep.onMasks (setRangeValueMasks_length _ _ _ _)
  · intro i isMember
    cases value with
    | false => exact rep.inside i (Finset.mem_sdiff.mp isMember).1
    | true =>
        rcases Finset.mem_union.mp isMember with old | new
        · exact rep.inside i old
        · have := (Finset.mem_Ico.mp new).2
          rw [← rep.sameLength]
          omega
  · intro i small
    rw [bitIn_setRangeValueMasks value isRange (by rw [rep.slice_length]; omega)
      (by rw [rep.slice_length]; exact small), rep.bits]
    by_cases inRange : start ≤ i ∧ i < stop
    · cases value with
      | false => simp [inRange]
      | true => simp [inRange]
    · rw [if_neg inRange]
      cases value with
      | false => simp [inRange]
      | true => simp [inRange]

/-- A change of every word, trimmed at the length. -/
theorem Represents.trimmed (rep : Represents s r) {write : List Word → List Word}
    {members : Finset Nat} (positive : s.bitLength ≠ 0)
    (long : (write s.masksSlice).length = s.masksSlice.length)
    (inside : ∀ i ∈ members, i < r.length)
    (bits : ∀ i, i < r.length → bitIn (write s.masksSlice) i = decide (i ∈ members)) :
    Represents ((s.onMasks write).onMasks (DynamicBitSetUnmanaged.trimLast s.bitLength))
      ⟨r.length, members⟩ := by
  have sliceLong := rep.slice_length
  have twice : (s.onMasks write).onMasks (DynamicBitSetUnmanaged.trimLast s.bitLength) =
      s.onMasks fun masks => DynamicBitSetUnmanaged.trimLast s.bitLength (write masks) := by
    have slice := onMasks_slice rep long
    have rest : (s.onMasks write).masks.drop (numMasks s.bitLength) =
        s.masks.drop (numMasks s.bitLength) := by
      apply List.drop_left'
      rw [long, sliceLong]
    unfold DynamicBitSetUnmanaged.onMasks at slice rest ⊢
    dsimp only at slice rest ⊢
    rw [slice, rest]
  rw [twice]
  apply rep.onMasks
  · unfold DynamicBitSetUnmanaged.trimLast
    rw [List.length_modify, long]
  · exact inside
  · intro i small
    rw [bitIn_trimLast (Nat.pos_of_ne_zero positive) (by omega) small, rep.sameLength]
    by_cases isInside : i < r.length
    · rw [bits i isInside, decide_eq_true isInside, Bool.and_true]
    · have noMember : i ∉ members := fun isMember => isInside (inside i isMember)
      simp [isInside, noMember]

theorem members_of_empty (rep : Represents s r) (isEmpty : s.bitLength = 0) :
    r.members = ∅ := by
  apply Finset.eq_empty_of_forall_notMem
  intro i isMember
  have := rep.inside i isMember
  rw [← rep.sameLength, isEmpty] at this
  exact Nat.not_lt_zero i this

theorem represents_setAll (rep : Represents s r) (value : Bool) :
    Represents (s.setAll value)
      ⟨r.length, if value then Finset.range r.length else ∅⟩ := by
  unfold DynamicBitSetUnmanaged.setAll
  by_cases isEmpty : s.bitLength = 0
  · rw [if_pos isEmpty]
    have same : (if value then Finset.range r.length else ∅) = r.members := by
      rw [members_of_empty rep isEmpty, ← rep.sameLength, isEmpty]
      cases value with
      | false => rfl
      | true => rfl
    rw [same]
    exact rep
  · rw [if_neg isEmpty]
    apply rep.trimmed isEmpty (List.length_map _)
    · intro i isMember
      cases value with
      | false => simp at isMember
      | true => exact Finset.mem_range.mp isMember
    · intro i isInside
      have covers := numMasks_covers s.bitLength
      have place : i / 64 < s.masksSlice.length := by
        rw [rep.slice_length]
        rw [← rep.sameLength] at isInside
        omega
      rw [bitIn_eq_getElem?, List.getElem?_map, List.getElem?_eq_getElem place, Option.map_some,
        Option.getD_some, boolMaskUsize_getLsbD _ (Nat.mod_lt _ (by decide))]
      cases value with
      | false => simp
      | true => simp [isInside]

theorem represents_toggleAll (rep : Represents s r) :
    Represents s.toggleAll ⟨r.length, Finset.range r.length \ r.members⟩ := by
  unfold DynamicBitSetUnmanaged.toggleAll
  by_cases isEmpty : s.bitLength = 0
  · rw [if_pos isEmpty]
    have same : Finset.range r.length \ r.members = r.members := by
      rw [members_of_empty rep isEmpty, ← rep.sameLength, isEmpty]
      rfl
    rw [same]
    exact rep
  · rw [if_neg isEmpty]
    apply rep.trimmed isEmpty (List.length_map _)
    · intro i isMember
      exact Finset.mem_range.mp (Finset.mem_sdiff.mp isMember).1
    · intro i isInside
      have covers := numMasks_covers s.bitLength
      have place : i / 64 < s.masksSlice.length := by
        rw [rep.slice_length]
        rw [← rep.sameLength] at isInside
        omega
      have old := rep.bits i
      rw [bitIn_eq_getElem?, List.getElem?_eq_getElem place, Option.getD_some] at old
      rw [bitIn_eq_getElem?, List.getElem?_map, List.getElem?_eq_getElem place, Option.map_some,
        Option.getD_some, BitVec.getLsbD_not, decide_eq_true (Nat.mod_lt _ (by decide)), old]
      simp [isInside]

/-! ### Operations on two sets -/

/-- The words of the second operand that the first one's loop reads are its own. -/
theorem bitIn_masks {other : DynamicBitSetUnmanaged} {n i : Nat}
    (enough : n ≤ numMasks other.bitLength) (small : i < 64 * n) :
    bitIn other.masks i = bitIn other.masksSlice i := by
  rw [DynamicBitSetUnmanaged.masksSlice, bitIn_take (by omega)]

theorem bitIn_zip (rep : Represents s r) (rep' : Represents other r')
    (enough : numMasks s.bitLength ≤ numMasks other.bitLength) {f : Word → Word → Word}
    {g : Bool → Bool → Bool}
    (bitwise : ∀ x y : Word, ∀ j, j < 64 → (f x y).getLsbD j = g (x.getLsbD j) (y.getLsbD j))
    {i : Nat} (small : i < 64 * numMasks s.bitLength) :
    bitIn (List.zipWith f s.masksSlice other.masks) i =
      g (decide (i ∈ r.members)) (decide (i ∈ r'.members)) := by
  have long : s.masksSlice.length ≤ other.masks.length := by
    rw [rep.slice_length]
    exact Nat.le_trans enough rep'.held
  rw [bitIn_zipWith long bitwise (by rw [rep.slice_length]; exact small),
    bitIn_masks enough small, rep.bits, rep'.bits]

theorem zip_length (rep : Represents s r) (rep' : Represents other r')
    (enough : numMasks s.bitLength ≤ numMasks other.bitLength) (f : Word → Word → Word) :
    (List.zipWith f s.masksSlice other.masks).length = s.masksSlice.length := by
  rw [List.length_zipWith, rep.slice_length]
  exact Nat.min_eq_left (Nat.le_trans enough rep'.held)

/-- A word operation that keeps zero bits zero needs no trimming. -/
theorem Represents.zip (rep : Represents s r) (rep' : Represents other r')
    (sameLength : other.bitLength = s.bitLength) {f : Word → Word → Word} {g : Bool → Bool → Bool}
    (bitwise : ∀ x y : Word, ∀ j, j < 64 → (f x y).getLsbD j = g (x.getLsbD j) (y.getLsbD j))
    {members : Finset Nat} (inside : ∀ i ∈ members, i < r.length)
    (bits : ∀ i, g (decide (i ∈ r.members)) (decide (i ∈ r'.members)) = decide (i ∈ members)) :
    Represents (s.zipMasksRaw other f) ⟨r.length, members⟩ := by
  have enough : numMasks s.bitLength ≤ numMasks other.bitLength := by rw [sameLength]
  apply rep.onMasks (zip_length rep rep' enough f) inside
  intro i small
  rw [bitIn_zip rep rep' enough bitwise small, bits]

/-- The lengths of the references agree when those of the sets do. -/
theorem Represents.lengths (rep : Represents s r) (rep' : Represents other r')
    (sameLength : other.bitLength = s.bitLength) : r'.length = r.length := by
  rw [← rep.sameLength, ← rep'.sameLength, sameLength]

theorem represents_setUnion (rep : Represents s r) (rep' : Represents other r')
    (sameLength : other.bitLength = s.bitLength) :
    Represents (s.setUnion other) ⟨r.length, r.members ∪ r'.members⟩ := by
  apply rep.zip rep' sameLength (g := fun a b => a || b)
  · intro x y j _
    exact BitVec.getLsbD_or
  · intro i isMember
    rcases Finset.mem_union.mp isMember with mine | theirs
    · exact rep.inside i mine
    · rw [← rep.lengths rep' sameLength]
      exact rep'.inside i theirs
  · intro i
    simp

theorem represents_setIntersection (rep : Represents s r) (rep' : Represents other r')
    (sameLength : other.bitLength = s.bitLength) :
    Represents (s.setIntersection other) ⟨r.length, r.members ∩ r'.members⟩ := by
  apply rep.zip rep' sameLength (g := fun a b => a && b)
  · intro x y j _
    exact BitVec.getLsbD_and
  · intro i isMember
    exact rep.inside i (Finset.mem_inter.mp isMember).1
  · intro i
    simp

theorem represents_setExclude (rep : Represents s r) (rep' : Represents other r')
    (sameLength : other.bitLength = s.bitLength) :
    Represents (s.setExclude other) ⟨r.length, r.members \ r'.members⟩ := by
  apply rep.zip rep' sameLength (g := fun a b => a && !b)
  · intro x y j small
    rw [BitVec.getLsbD_and, BitVec.getLsbD_not, decide_eq_true small, Bool.true_and]
  · intro i isMember
    exact rep.inside i (Finset.mem_sdiff.mp isMember).1
  · intro i
    simp

theorem represents_toggleSet (rep : Represents s r) (rep' : Represents other r')
    (sameLength : other.bitLength = s.bitLength) :
    Represents (s.toggleSet other) ⟨r.length, symmDiff r.members r'.members⟩ := by
  have enough : numMasks s.bitLength ≤ numMasks other.bitLength := by rw [sameLength]
  have inside : ∀ i ∈ symmDiff r.members r'.members, i < r.length := by
    intro i isMember
    rcases Finset.mem_symmDiff.mp isMember with mine | theirs
    · exact rep.inside i mine.1
    · rw [← rep.lengths rep' sameLength]
      exact rep'.inside i theirs.1
  unfold DynamicBitSetUnmanaged.toggleSet
  by_cases isEmpty : s.bitLength = 0
  · have noMembers : symmDiff r.members r'.members = r.members := by
      rw [members_of_empty rep isEmpty,
        members_of_empty rep' (by rw [sameLength, isEmpty]), symmDiff_self]
      rfl
    rw [if_pos isEmpty, noMembers]
    exact rep
  · rw [if_neg isEmpty]
    apply rep.trimmed isEmpty (zip_length rep rep' enough _) inside
    intro i isInside
    have covers := numMasks_covers s.bitLength
    rw [bitIn_zip rep rep' enough (g := fun a b => a ^^ b) (fun x y j _ => BitVec.getLsbD_xor)
      (by rw [← rep.sameLength] at isInside; omega)]
    by_cases mine : i ∈ r.members
    · simp [Finset.mem_symmDiff, mine]
    · simp [Finset.mem_symmDiff, mine]

theorem represents_copyInto (rep : Represents s r) (rep' : Represents other r')
    (enough : numMasks s.bitLength ≤ numMasks other.bitLength) :
    Represents (s.copyInto other) ⟨r.length, r'.members.filter (· < r.length)⟩ := by
  unfold DynamicBitSetUnmanaged.copyInto
  by_cases isEmpty : s.bitLength = 0
  · have noMembers : r'.members.filter (· < r.length) = r.members := by
      rw [members_of_empty rep isEmpty, ← rep.sameLength, isEmpty]
      simp
    rw [if_pos isEmpty, noMembers]
    exact rep
  · rw [if_neg isEmpty]
    apply rep.trimmed isEmpty (zip_length rep rep' enough _)
    · intro i isMember
      exact (Finset.mem_filter.mp isMember).2
    · intro i isInside
      have covers := numMasks_covers s.bitLength
      rw [bitIn_zip rep rep' enough (g := fun _ b => b) (fun _ _ _ _ => rfl)
        (by rw [← rep.sameLength] at isInside; omega)]
      simp [isInside]

end Bunx.Collections
