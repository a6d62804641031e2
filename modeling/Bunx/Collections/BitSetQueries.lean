/-
Module: Bunx.Collections.BitSetQueries
Purpose: What the queries of a bit set answer: membership, the count, the first member,
  equality, inclusion, and the four iterators, each element once and in order.
Trusted boundary: none
Main exports:
  isSet_eq, count_eq, findFirstSet_eq, represents_toggleFirstSet, eql_eq, subsetOf_eq,
  visits, iterator_exhausts
-/
import Mathlib.Data.Finset.Card
import Bunx.Collections.BitSetMembers

namespace Bunx.Collections

open Lib

variable {s other : DynamicBitSetUnmanaged} {r r' : ReferenceSet}

theorem zero_getLsbD (j : Nat) : (0 : Word).getLsbD j = false := BitVec.getLsbD_zero

theorem isSet_eq (rep : Represents s r) (index : Nat) :
    s.isSet index = decide (index ∈ r.members) := by
  have small : index % 64 < 64 := Nat.mod_lt _ (by decide)
  rw [← rep.bits, DynamicBitSetUnmanaged.isSet, bitIn, wordMaskIndex]
  generalize s.masksSlice.getD (index / 64) 0 = word
  have bit : (word &&& wordMaskBit index).getLsbD (index % 64) = word.getLsbD (index % 64) := by
    rw [BitVec.getLsbD_and, wordMaskBit_getLsbD _ small]
    simp
  cases isOne : word.getLsbD (index % 64) with
  | true =>
      apply bne_iff_ne.mpr
      intro isZero
      rw [isZero, isOne, zero_getLsbD] at bit
      exact Bool.false_ne_true bit
  | false =>
      have isZero : word &&& wordMaskBit index = 0 := by
        apply BitVec.eq_of_getLsbD_eq
        intro j inWord
        rw [BitVec.getLsbD_and, wordMaskBit_getLsbD _ inWord]
        by_cases same : j = index % 64
        · rw [same, isOne, zero_getLsbD, Bool.false_and]
        · simp [same]
      rw [isZero]
      rfl

/-- The ones of the words are the members in ascending order. -/
theorem onesIn_eq_ascending (rep : Represents s r) : onesIn s.masksSlice = r.ascending := by
  have covers := numMasks_covers s.bitLength
  have size : 64 * s.masksSlice.length =
      r.length + (64 * numMasks s.bitLength - s.bitLength) := by
    rw [rep.slice_length, ← rep.sameLength]
    omega
  unfold onesIn ReferenceSet.ascending
  rw [size, List.range_add, List.filter_append]
  have past : ((List.range (64 * numMasks s.bitLength - s.bitLength)).map
      fun j => r.length + j).filter (fun i => bitIn s.masksSlice i) = [] := by
    apply List.filter_eq_nil_iff.mpr
    intro i isPast
    obtain ⟨j, _, rfl⟩ := List.mem_map.mp isPast
    rw [rep.padding (by rw [rep.sameLength]; exact Nat.le_add_right _ _)]
    exact Bool.false_ne_true
  rw [past, List.append_nil]
  apply List.filter_congr
  intro i _
  exact rep.bits i

theorem ascending_length (inside : ∀ i ∈ r.members, i < r.length) :
    r.ascending.length = r.members.card := by
  have nodup : r.ascending.Nodup := List.nodup_range.filter _
  have same : r.ascending.toFinset = r.members := by
    ext i
    unfold ReferenceSet.ascending
    rw [List.mem_toFinset, List.mem_filter, List.mem_range, decide_eq_true_iff]
    exact ⟨fun both => both.2, fun isMember => ⟨inside i isMember, isMember⟩⟩
  rw [← same, List.toFinset_card_of_nodup nodup]

theorem count_eq (rep : Represents s r) : s.count = r.members.card := by
  have total : ∀ (masks : List Word) (start : Nat),
      masks.foldl (fun total mask => total + mask.cpop.toNat) start =
        start + (masks.map fun mask => mask.cpop.toNat).sum := by
    intro masks
    induction masks with
    | nil =>
        intro start
        rfl
    | cons mask rest ih =>
        intro start
        rw [List.foldl_cons, ih, List.map_cons, List.sum_cons, Nat.add_assoc]
  rw [DynamicBitSetUnmanaged.count, total, Nat.zero_add, ← onesIn_length _ (by decide),
    onesIn_eq_ascending rep, ascending_length rep.inside]

/-! ### The first member -/

theorem findFirstIn_eq (masks : List Word) : ∀ offset : Nat,
    DynamicBitSetUnmanaged.findFirstIn offset masks =
      (onesIn masks).head?.map fun i => offset + i := by
  induction masks with
  | nil =>
      intro offset
      rfl
  | cons mask rest ih =>
      intro offset
      rw [DynamicBitSetUnmanaged.findFirstIn, onesIn_cons _ _ (by decide)]
      by_cases isZero : mask = 0
      · rw [if_neg (not_not.mpr isZero), isZero, ones_zero, List.nil_append, ih, List.head?_map,
          Option.map_map]
        congr 1
        funext i
        exact Nat.add_assoc offset 64 i
      · rw [if_pos isZero, ones_low isZero]
        rfl

theorem toggleFirstIn_fst (masks : List Word) : ∀ offset : Nat,
    (DynamicBitSetUnmanaged.toggleFirstIn offset masks).1 =
      DynamicBitSetUnmanaged.findFirstIn offset masks := by
  induction masks with
  | nil =>
      intro offset
      rfl
  | cons mask rest ih =>
      intro offset
      rw [DynamicBitSetUnmanaged.toggleFirstIn, DynamicBitSetUnmanaged.findFirstIn]
      by_cases isZero : mask = 0
      · rw [if_neg (not_not.mpr isZero), if_neg (not_not.mpr isZero)]
        exact ih (offset + 64)
      · rw [if_pos isZero, if_pos isZero]

theorem toggleFirstIn_length (masks : List Word) : ∀ offset : Nat,
    (DynamicBitSetUnmanaged.toggleFirstIn offset masks).2.length = masks.length := by
  induction masks with
  | nil =>
      intro offset
      rfl
  | cons mask rest ih =>
      intro offset
      rw [DynamicBitSetUnmanaged.toggleFirstIn]
      by_cases isZero : mask = 0
      · rw [if_neg (not_not.mpr isZero), List.length_cons, ih, List.length_cons]
      · rw [if_pos isZero]
        rfl

/-- Only the first one is cleared. -/
theorem bitIn_toggleFirstIn (masks : List Word) : ∀ (offset i : Nat), i < 64 * masks.length →
    bitIn (DynamicBitSetUnmanaged.toggleFirstIn offset masks).2 i =
      (bitIn masks i &&
        decide (DynamicBitSetUnmanaged.findFirstIn offset masks ≠ some (offset + i))) := by
  induction masks with
  | nil =>
      intro offset i inside
      exact absurd inside (Nat.not_lt_zero i)
  | cons mask rest ih =>
      intro offset i inside
      rw [DynamicBitSetUnmanaged.toggleFirstIn, DynamicBitSetUnmanaged.findFirstIn]
      by_cases isZero : mask = 0
      · rw [if_neg (not_not.mpr isZero), if_neg (not_not.mpr isZero)]
        by_cases low : i < 64
        · rw [bitIn_cons_low low, bitIn_cons_low low, isZero, zero_getLsbD,
            Bool.false_and]
        · obtain ⟨j, rfl⟩ := Nat.exists_eq_add_of_le (Nat.le_of_not_lt low)
          rw [bitIn_cons_high (by decide), bitIn_cons_high (by decide),
            ih (offset + 64) j (by rw [List.length_cons] at inside; omega), Nat.add_assoc]
      · rw [if_pos isZero, if_pos isZero]
        by_cases low : i < 64
        · rw [bitIn_cons_low low, bitIn_cons_low low, getLsbD_clear_lowest isZero low]
          congr 1
          apply decide_eq_decide.mpr
          constructor
          · intro other same
            have := Option.some.inj same
            omega
          · intro other same
            exact other (by rw [same])
        · obtain ⟨j, rfl⟩ := Nat.exists_eq_add_of_le (Nat.le_of_not_lt low)
          rw [bitIn_cons_high (by decide), bitIn_cons_high (by decide)]
          have small := BitVec.lt_of_getLsbD (BitVec.getLsbD_true_ctz_of_ne_zero isZero)
          have apart : ¬mask.ctz.toNat = 64 + j := by omega
          simp [apart]

theorem findFirstSet_eq (rep : Represents s r) : s.findFirstSet = r.ascending.head? := by
  rw [DynamicBitSetUnmanaged.findFirstSet, findFirstIn_eq, onesIn_eq_ascending rep]
  have same : (fun i => 0 + i) = (id : Nat → Nat) := by
    funext i
    exact Nat.zero_add i
  rw [same, Option.map_id, id]

/-- The members without the first one. -/
def ReferenceSet.eraseFirst (r : ReferenceSet) : ReferenceSet :=
  ⟨r.length, r.members.filter fun i => r.ascending.head? ≠ some i⟩

theorem represents_toggleFirstSet (rep : Represents s r) :
    s.toggleFirstSet.1 = r.ascending.head? ∧ Represents s.toggleFirstSet.2 r.eraseFirst := by
  constructor
  · rw [DynamicBitSetUnmanaged.toggleFirstSet, toggleFirstIn_fst]
    exact findFirstSet_eq rep
  · show Represents (s.onMasks fun masks => (DynamicBitSetUnmanaged.toggleFirstIn 0 masks).2)
      ⟨r.length, r.members.filter fun i => r.ascending.head? ≠ some i⟩
    refine rep.onMasks ?_ ?_ ?_
    · exact toggleFirstIn_length _ 0
    · intro i isMember
      exact rep.inside i (Finset.mem_filter.mp isMember).1
    · intro i small
      have first : DynamicBitSetUnmanaged.findFirstIn 0 s.masksSlice = r.ascending.head? :=
        findFirstSet_eq rep
      rw [bitIn_toggleFirstIn _ 0 i (by rw [rep.slice_length]; exact small), rep.bits, Nat.zero_add,
        first, ← Bool.decide_and]
      apply decide_eq_decide.mpr
      rw [Finset.mem_filter]

/-! ### Two sets -/

theorem eql_eq (rep : Represents s r) (rep' : Represents other r') :
    s.eql other = decide (r = r') := by
  rw [DynamicBitSetUnmanaged.eql]
  by_cases sameLength : s.bitLength = other.bitLength
  · rw [if_neg (not_not.mpr sameLength)]
    apply Bool.eq_iff_iff.mpr
    rw [beq_iff_eq, decide_eq_true_iff]
    have lengths : r.length = r'.length := by
      rw [← rep.sameLength, ← rep'.sameLength, sameLength]
    constructor
    · intro sameWords
      have members : r.members = r'.members := by
        ext i
        have mine := rep.bits i
        rw [sameWords, rep'.bits] at mine
        exact (decide_eq_decide.mp mine).symm
      cases r
      cases r'
      simp_all
    · intro sameSet
      apply words_ext
      · rw [rep.slice_length, rep'.slice_length, sameLength]
      · intro i
        rw [rep.bits, rep'.bits, sameSet]
  · rw [if_pos sameLength]
    apply (decide_eq_false _).symm
    intro same
    apply sameLength
    rw [rep.sameLength, rep'.sameLength, same]

theorem subsetOf_eq (rep : Represents s r) (rep' : Represents other r') :
    s.subsetOf other = decide (r.length = r'.length ∧ r.members ⊆ r'.members) := by
  rw [DynamicBitSetUnmanaged.subsetOf]
  by_cases sameLength : s.bitLength = other.bitLength
  · have lengths : r.length = r'.length := by
      rw [← rep.sameLength, ← rep'.sameLength, sameLength]
    have long : s.masksSlice.length = other.masksSlice.length := by
      rw [rep.slice_length, rep'.slice_length, sameLength]
    rw [if_neg (not_not.mpr sameLength)]
    apply Bool.eq_iff_iff.mpr
    rw [List.all_eq_true, decide_eq_true_iff]
    constructor
    · intro every
      refine ⟨lengths, ?_⟩
      intro i isMember
      have isBit : bitIn s.masksSlice i = true := by
        rw [rep.bits]
        exact decide_eq_true isMember
      have place : i / 64 < s.masksSlice.length := by
        by_contra outside
        rw [bitIn_outside (by omega)] at isBit
        exact Bool.false_ne_true isBit
      have place' : i / 64 < other.masksSlice.length := long ▸ place
      have pair : (s.masksSlice[i / 64], other.masksSlice[i / 64]) ∈
          s.masksSlice.zip other.masksSlice := by
        apply List.mem_iff_getElem.mpr
        refine ⟨i / 64, ?_, List.getElem_zip⟩
        rw [List.length_zip]
        omega
      have within := beq_iff_eq.mp (every _ pair)
      apply of_decide_eq_true
      rw [← rep'.bits, bitIn_eq_getElem?, List.getElem?_eq_getElem place']
      rw [bitIn_eq_getElem?, List.getElem?_eq_getElem place, Option.getD_some] at isBit
      have bit := congrArg (fun word => word.getLsbD (i % 64)) within
      dsimp only at bit
      rw [BitVec.getLsbD_and, isBit, Bool.true_and] at bit
      exact bit
    · rintro ⟨_, subset⟩ pair isPair
      obtain ⟨k, inZip, rfl⟩ := List.mem_iff_getElem.mp isPair
      have place : k < s.masksSlice.length := by
        rw [List.length_zip] at inZip
        omega
      rw [List.getElem_zip, beq_iff_eq]
      apply BitVec.eq_of_getLsbD_eq
      intro j small
      have index : (64 * k + j) / 64 = k ∧ (64 * k + j) % 64 = j := by omega
      have mine := rep.bits (64 * k + j)
      have theirs := rep'.bits (64 * k + j)
      rw [bitIn_eq_getElem?, index.1, index.2, List.getElem?_eq_getElem place,
        Option.getD_some] at mine
      rw [bitIn_eq_getElem?, index.1, index.2, List.getElem?_eq_getElem (long ▸ place),
        Option.getD_some] at theirs
      rw [BitVec.getLsbD_and, mine, theirs]
      by_cases isMember : 64 * k + j ∈ r.members
      · simp [isMember, subset isMember]
      · simp [isMember]
  · rw [if_pos sameLength]
    apply (decide_eq_false _).symm
    rintro ⟨same, _⟩
    apply sameLength
    rw [rep.sameLength, rep'.sameLength, same]

/-! ### Iterators -/

namespace BitSetIterator

/-- What an iterator of the kind sees of a word. -/
def seen (kindSet : Bool) (word : Word) : Word := if kindSet then word else ~~~word

/-- The words a forward iterator will see: the last one is masked. -/
def ahead (kindSet : Bool) (mask : Word) : List Word → List Word
  | [] => []
  | word :: rest =>
      (if !kindSet && rest.isEmpty then ~~~word &&& mask else seen kindSet word) ::
        ahead kindSet mask rest

/-- What a forward iterator has still to give. -/
def remainsForward (kindSet : Bool) (it : BitSetIterator) : List Nat :=
  (ones it.bitsRemain).map (· + it.bitOffset) ++
    (onesIn (ahead kindSet it.lastWordMask it.wordsRemain)).map fun i => it.bitOffset + 64 + i

/-- What a reverse iterator has still to give. -/
def remainsReverse (kindSet : Bool) (it : BitSetIterator) : List Nat :=
  (onesIn (it.wordsRemain.map (seen kindSet)) ++
    (ones it.bitsRemain).map fun j => it.bitOffset + j).reverse

/-- `next` gives the first of what remains and leaves the others. -/
def Gives (kindSet dirFwd : Bool) (remains : BitSetIterator → List Nat)
    (holds : BitSetIterator → Prop) (it : BitSetIterator) : Prop :=
  (remains it = [] ∧ it.next kindSet dirFwd = none) ∨
    ∃ i it', it.next kindSet dirFwd = some (i, it') ∧ remains it = i :: remains it' ∧ holds it'

/-- An iterator whose every `next` gives the first of what remains gives all of it. -/
theorem exhaust_eq {kindSet dirFwd : Bool} {remains : BitSetIterator → List Nat}
    {holds : BitSetIterator → Prop}
    (gives : ∀ it, holds it → Gives kindSet dirFwd remains holds it) :
    ∀ (calls : Nat) (it : BitSetIterator), holds it → (remains it).length < calls →
      it.exhaust kindSet dirFwd calls = some (remains it) := by
  intro calls
  induction calls with
  | zero =>
      intro it _ few
      exact absurd few (Nat.not_lt_zero _)
  | succ calls ih =>
      intro it holdsNow few
      rw [exhaust]
      rcases gives it holdsNow with ⟨none_, isNone⟩ | ⟨i, it', isSome, first, holdsNext⟩
      · rw [isNone, none_]
      · rw [isSome, first]
        dsimp only
        rw [ih it' holdsNext (by rw [first, List.length_cons] at few; omega)]
        rfl

/-- The word of a forward iterator that `next_word` loads. -/
def loadedForward (kindSet : Bool) (mask word : Word) (rest : List Word) : Word :=
  if !kindSet && rest.isEmpty then ~~~word &&& mask else seen kindSet word

/-- The first word of a reverse iterator. -/
def loadedFirst (kindSet : Bool) (mask word : Word) : Word :=
  if kindSet then word else ~~~word &&& mask

theorem nextWord_forward (kindSet isFirstWord : Bool) {it : BitSetIterator} {word : Word}
    {rest : List Word} (isWords : it.wordsRemain = word :: rest) :
    it.nextWord kindSet true isFirstWord =
      { it with
        bitsRemain := loadedForward kindSet it.lastWordMask word rest
        wordsRemain := rest } := by
  unfold nextWord loadedForward seen
  rw [isWords]
  cases kindSet with
  | true => rfl
  | false =>
      cases rest with
      | nil => rfl
      | cons _ _ => rfl

theorem nextWord_reverse (kindSet isFirstWord : Bool) {it : BitSetIterator} {word : Word}
    {rest : List Word} (isWords : it.wordsRemain = rest ++ [word]) :
    it.nextWord kindSet false isFirstWord =
      { it with
        bitsRemain := if isFirstWord then loadedFirst kindSet it.lastWordMask word
          else seen kindSet word
        wordsRemain := rest } := by
  have last : (rest ++ [word]).getLastD 0 = word := List.getLastD_concat
  have others : (rest ++ [word]).dropLast = rest := List.dropLast_concat
  unfold nextWord loadedFirst seen
  dsimp only
  rw [isWords, if_neg Bool.false_ne_true, if_neg Bool.false_ne_true, last, others]
  cases kindSet with
  | true =>
      cases isFirstWord with
      | true => rfl
      | false => rfl
  | false =>
      cases isFirstWord with
      | true => rfl
      | false => rfl

/-- Inside a word: the lowest one. -/
theorem gives_lowest (kindSet : Bool) {it : BitSetIterator} (nonzero : it.bitsRemain ≠ 0) :
    Gives kindSet true (remainsForward kindSet) (fun _ => True) it := by
  right
  refine ⟨it.bitsRemain.ctz.toNat + it.bitOffset,
    { it with bitsRemain := it.bitsRemain &&& (it.bitsRemain - 1) }, ?_, ?_, trivial⟩
  · rw [next, if_neg nonzero]
    rfl
  · unfold remainsForward
    rw [ones_low nonzero]
    rfl

theorem next_forward (kindSet : Bool) : ∀ (words : List Word) (it : BitSetIterator),
    it.wordsRemain = words →
      Gives kindSet true (remainsForward kindSet) (fun _ => True) it := by
  intro words
  induction words with
  | nil =>
      intro it noWords
      by_cases isZero : it.bitsRemain = 0
      · left
        constructor
        · unfold remainsForward
          rw [isZero, ones_zero, noWords]
          rfl
        · rw [next, if_pos isZero, noWords]
          rfl
      · exact gives_lowest kindSet isZero
  | cons word rest ih =>
      intro it isWords
      by_cases isZero : it.bitsRemain = 0
      · have isNext := nextWord_forward kindSet false isWords
        have later := ih { it.nextWord kindSet true false with bitOffset := it.bitOffset + 64 }
          (by rw [isNext])
        have sameRest : remainsForward kindSet it = remainsForward kindSet
            { it.nextWord kindSet true false with bitOffset := it.bitOffset + 64 } := by
          rw [isNext]
          unfold remainsForward
          dsimp only
          rw [isZero, ones_zero, isWords, ahead, onesIn_cons _ _ (by decide), List.map_append,
            List.map_nil, List.nil_append, List.map_map]
          congr 1
          · apply List.map_congr_left
            intro j _
            exact Nat.add_comm _ _
          · apply List.map_congr_left
            intro j _
            exact (Nat.add_assoc (it.bitOffset + 64) 64 j).symm
        unfold Gives
        rw [next, if_pos isZero, isWords, sameRest]
        exact later
      · exact gives_lowest kindSet isZero

/-- The offset of a reverse iterator is that of the word it is in. -/
def Placed (it : BitSetIterator) : Prop := it.bitOffset = 64 * it.wordsRemain.length

/-- Inside a word: the highest one. -/
theorem gives_highest (kindSet : Bool) {it : BitSetIterator} (placed : Placed it)
    (nonzero : it.bitsRemain ≠ 0) : Gives kindSet false (remainsReverse kindSet) Placed it := by
  right
  refine ⟨topBit it.bitsRemain + it.bitOffset,
    { it with bitsRemain := it.bitsRemain &&& (1#64 <<< topBit it.bitsRemain - 1) }, ?_, ?_, placed⟩
  · rw [next, if_neg nonzero]
    rfl
  · unfold remainsReverse
    rw [ones_high nonzero, List.map_append, ← List.append_assoc, List.reverse_append,
      Nat.add_comm]
    rfl

theorem next_reverse (kindSet : Bool) : ∀ (words : List Word) (it : BitSetIterator),
    it.wordsRemain = words → Placed it →
      Gives kindSet false (remainsReverse kindSet) Placed it := by
  intro words
  induction words using List.reverseRecOn with
  | nil =>
      intro it noWords placed
      by_cases isZero : it.bitsRemain = 0
      · left
        constructor
        · unfold remainsReverse
          rw [isZero, ones_zero, noWords]
          rfl
        · rw [next, if_pos isZero, noWords]
          rfl
      · exact gives_highest kindSet placed isZero
  | append_singleton rest word ih =>
      intro it isWords placed
      by_cases isZero : it.bitsRemain = 0
      · have size : it.bitOffset = 64 * rest.length + 64 := by
          rw [placed, isWords, List.length_append, List.length_singleton, Nat.mul_add]
        have isNext := nextWord_reverse kindSet false isWords
        have later := ih { it.nextWord kindSet false false with bitOffset := it.bitOffset - 64 }
          (by rw [isNext])
          (by
            rw [isNext, Placed, size]
            exact Nat.add_sub_cancel _ _)
        have sameRest : remainsReverse kindSet it = remainsReverse kindSet
            { it.nextWord kindSet false false with bitOffset := it.bitOffset - 64 } := by
          rw [isNext]
          unfold remainsReverse
          dsimp only
          rw [isZero, ones_zero, isWords, if_neg Bool.false_ne_true, List.map_append,
            List.map_singleton, onesIn_concat, List.length_map, size, Nat.add_sub_cancel,
            List.map_nil, List.append_nil]
        have some_ : (rest ++ [word]).isEmpty = false := by
          cases rest with
          | nil => rfl
          | cons _ _ => rfl
        unfold Gives
        rw [next, if_pos isZero, isWords, some_, if_neg Bool.false_ne_true, sameRest]
        exact later
      · exact gives_highest kindSet placed isZero

/-- All the words of a forward iterator, read once. -/
theorem remainsForward_init (kindSet : Bool) (masks : List Word) (mask : Word) :
    remainsForward kindSet (init kindSet true masks mask) = onesIn (ahead kindSet mask masks) := by
  cases masks with
  | nil =>
      show (ones (0 : Word)).map _ ++ [] = _
      rw [ones_zero]
      rfl
  | cons word rest =>
      have isInit : init kindSet true (word :: rest) mask =
          nextWord kindSet true true ⟨0, word :: rest, 0, mask⟩ := rfl
      rw [isInit, nextWord_forward kindSet true rfl, ahead, onesIn_cons _ _ (by decide)]
      unfold remainsForward
      congr 1
      exact List.map_id _

/-- All the words of a reverse iterator; the one it starts with is masked. -/
theorem remainsReverse_init (kindSet : Bool) (masks : List Word) (word mask : Word) :
    remainsReverse kindSet (init kindSet false (masks ++ [word]) mask) =
      (onesIn (masks.map (seen kindSet) ++ [loadedFirst kindSet mask word])).reverse ∧
    Placed (init kindSet false (masks ++ [word]) mask) := by
  have isInit : init kindSet false (masks ++ [word]) mask =
      nextWord kindSet false true ⟨0, masks ++ [word], masks.length * 64, mask⟩ := by
    unfold init
    cases masks with
    | nil => rfl
    | cons _ _ =>
        rw [List.length_append, List.length_singleton, Nat.add_sub_cancel]
        rfl
  rw [isInit, nextWord_reverse kindSet true rfl]
  constructor
  · unfold remainsReverse
    rw [onesIn_concat, List.length_map, if_pos rfl, Nat.mul_comm]
  · exact Nat.mul_comm _ _

/-- The words a forward iterator sees, the last one masked. -/
theorem ahead_concat (kindSet : Bool) (mask word : Word) (masks : List Word) :
    ahead kindSet mask (masks ++ [word]) =
      masks.map (seen kindSet) ++ [loadedFirst kindSet mask word] := by
  induction masks with
  | nil =>
      cases kindSet with
      | true => rfl
      | false => rfl
  | cons first rest ih =>
      have more : (rest ++ [word]).isEmpty = false := by
        cases rest with
        | nil => rfl
        | cons _ _ => rfl
      rw [List.cons_append, ahead, more, Bool.and_false, if_neg Bool.false_ne_true, ih]
      rfl

end BitSetIterator

open BitSetIterator

/-- What an iterator visits: members or the others, upwards or downwards. -/
def ReferenceSet.visits (r : ReferenceSet) (kindSet dirFwd : Bool) : List Nat :=
  let places := if kindSet then r.ascending else r.absent
  if dirFwd then places else places.reverse

theorem visits_length (r : ReferenceSet) (kindSet dirFwd : Bool) :
    (r.visits kindSet dirFwd).length ≤ r.length := by
  have atMost : ∀ p : Nat → Bool, ((List.range r.length).filter p).length ≤ r.length := by
    intro p
    have := List.length_filter_le p (List.range r.length)
    rwa [List.length_range] at this
  cases kindSet with
  | true =>
      cases dirFwd with
      | true => exact atMost _
      | false => exact Nat.le_trans (Nat.le_of_eq List.length_reverse) (atMost _)
  | false =>
      cases dirFwd with
      | true => exact atMost _
      | false => exact Nat.le_trans (Nat.le_of_eq List.length_reverse) (atMost _)

/-- The words the iterators see hold the members, or with the complemented words all the
others. -/
theorem onesIn_seen (rep : Represents s r) (kindSet : Bool) {masks : List Word} {word : Word}
    (isSlice : s.masksSlice = masks ++ [word]) :
    onesIn (masks.map (seen kindSet) ++
        [loadedFirst kindSet (lastItemMask (numMasks s.bitLength) s.bitLength) word]) =
      if kindSet then r.ascending else r.absent := by
  cases kindSet with
  | true =>
      have same : masks.map (seen true) = masks := by
        have plain : seen true = id := rfl
        rw [plain, List.map_id]
      rw [same, ← onesIn_eq_ascending rep, isSlice]
      rfl
  | false =>
      have size : numMasks s.bitLength = masks.length + 1 := by
        rw [← rep.slice_length, isSlice, List.length_append, List.length_singleton]
      have isSome : s.bitLength ≠ 0 := by
        have := numMasks_pos.mp (Nat.lt_of_lt_of_eq (Nat.succ_pos _) size.symm)
        omega
      have toggled : s.toggleAll.masksSlice = masks.map (seen false) ++
          [loadedFirst false (lastItemMask (numMasks s.bitLength) s.bitLength) word] := by
        have long : (s.masksSlice.map fun mask => ~~~mask).length = s.masksSlice.length :=
          List.length_map _
        have onWords := (represents_toggleAll rep).slice_length
        unfold DynamicBitSetUnmanaged.toggleAll at onWords ⊢
        rw [if_neg isSome] at onWords ⊢
        have trimmed : ((s.onMasks fun masks => masks.map fun mask => ~~~mask).onMasks
            (DynamicBitSetUnmanaged.trimLast s.bitLength)).masksSlice =
            DynamicBitSetUnmanaged.trimLast s.bitLength
              (s.onMasks fun masks => masks.map fun mask => ~~~mask).masksSlice := by
          show ((DynamicBitSetUnmanaged.trimLast s.bitLength _ ++ _).take
            (numMasks s.bitLength)) = _
          apply List.take_left'
          rw [DynamicBitSetUnmanaged.trimLast, List.length_modify, onMasks_slice rep long, long,
            rep.slice_length]
        rw [trimmed, onMasks_slice rep long, isSlice, DynamicBitSetUnmanaged.trimLast, size,
          Nat.add_sub_cancel, List.map_append, List.map_singleton]
        have last := modify_concat (masks.map fun mask => ~~~mask) (~~~word)
          fun mask => mask &&& lastItemMask (masks.length + 1) s.bitLength
        rw [List.length_map] at last
        exact last
      rw [← toggled, onesIn_eq_ascending (represents_toggleAll rep)]
      unfold ReferenceSet.ascending ReferenceSet.absent
      rw [if_neg Bool.false_ne_true]
      apply List.filter_congr
      intro i inside
      apply decide_eq_decide.mpr
      rw [Finset.mem_sdiff, Finset.mem_range]
      exact and_iff_right (List.mem_range.mp inside)

/-- Called until it ends, an iterator gives each element of its kind once and in order. -/
theorem iterator_exhausts (rep : Represents s r) (kindSet dirFwd : Bool) :
    (s.iterator kindSet dirFwd).exhaust kindSet dirFwd (s.bitLength + 1) =
      some (r.visits kindSet dirFwd) := by
  have few := visits_length r kindSet dirFwd
  rw [← rep.sameLength] at few
  have all : ∀ (remains : BitSetIterator → List Nat) (holds : BitSetIterator → Prop),
      (∀ it, holds it → Gives kindSet dirFwd remains holds it) →
      holds (s.iterator kindSet dirFwd) →
      remains (s.iterator kindSet dirFwd) = r.visits kindSet dirFwd →
      (s.iterator kindSet dirFwd).exhaust kindSet dirFwd (s.bitLength + 1) =
        some (r.visits kindSet dirFwd) := by
    intro remains holds gives atStart isAll
    rw [exhaust_eq gives _ _ atStart (by rw [isAll]; omega), isAll]
  have noneAtAll : s.masksSlice = [] → r.visits kindSet dirFwd = [] := by
    intro noWords
    have noLength : r.length = 0 := by
      have covers := numMasks_covers s.bitLength
      have size := rep.slice_length
      rw [noWords, List.length_nil] at size
      rw [← rep.sameLength]
      omega
    have isShort := visits_length r kindSet dirFwd
    rw [noLength] at isShort
    exact List.eq_nil_of_length_eq_zero (Nat.le_zero.mp isShort)
  cases dirFwd with
  | true =>
      apply all (remainsForward kindSet) (fun _ => True)
        (fun it _ => next_forward kindSet _ it rfl) trivial
      rw [DynamicBitSetUnmanaged.iterator, remainsForward_init]
      rcases List.eq_nil_or_concat' s.masksSlice with noWords | ⟨masks, word, isSlice⟩
      · rw [noWords, noneAtAll noWords]
        rfl
      · rw [isSlice, ahead_concat, onesIn_seen rep kindSet isSlice]
        rfl
  | false =>
      rcases List.eq_nil_or_concat' s.masksSlice with noWords | ⟨masks, word, isSlice⟩
      · apply all (remainsReverse kindSet) Placed (fun it placed => next_reverse kindSet _ it rfl placed)
        · rw [DynamicBitSetUnmanaged.iterator, noWords]
          rfl
        · rw [DynamicBitSetUnmanaged.iterator, noWords, noneAtAll noWords]
          show (onesIn [] ++ (ones (0 : Word)).map _).reverse = []
          rw [ones_zero]
          rfl
      · have started := remainsReverse_init kindSet masks word
          (lastItemMask (numMasks s.bitLength) s.bitLength)
        rw [onesIn_seen rep kindSet isSlice, ← isSlice] at started
        exact all (remainsReverse kindSet) Placed
          (fun it placed => next_reverse kindSet _ it rfl placed) started.2 started.1

end Bunx.Collections
