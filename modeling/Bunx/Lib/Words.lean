/-
Module: Bunx.Lib.Words
Purpose: A list of machine words read as one long row of bits: what a change of one word does
  to the row, and the places of its ones in ascending order, word by word and bit by bit.
Trusted boundary: none
Main exports: bitIn, bitIn_modify, bitIn_zipWith, ones, ones_low, ones_high, onesIn,
  onesIn_cons, onesIn_concat
-/
import Mathlib.Data.List.Range
import Mathlib.Data.Nat.Bitwise
import Mathlib.Data.List.DropRight

namespace Bunx.Lib

variable {w : Nat}

/-- Bit `i` of the row, words of `w` bits from the low end; zero past the last word. -/
def bitIn (words : List (BitVec w)) (i : Nat) : Bool :=
  (words.getD (i / w) 0).getLsbD (i % w)

theorem bitIn_eq_getElem? (words : List (BitVec w)) (i : Nat) :
    bitIn words i = ((words[i / w]?).getD 0).getLsbD (i % w) := by
  rw [bitIn, List.getD_eq_getElem?_getD]

theorem bitIn_outside {words : List (BitVec w)} {i : Nat} (outside : w * words.length ≤ i) :
    bitIn words i = false := by
  rcases Nat.eq_zero_or_pos w with rfl | positive
  · exact BitVec.getLsbD_of_ge _ _ (Nat.zero_le _)
  · have far : words.length ≤ i / w := (Nat.le_div_iff_mul_le positive).mpr (by
      rw [Nat.mul_comm]
      exact outside)
    rw [bitIn_eq_getElem?, List.getElem?_eq_none far]
    exact BitVec.getLsbD_zero

theorem bitIn_nil (i : Nat) : bitIn ([] : List (BitVec w)) i = false :=
  bitIn_outside (Nat.zero_le _)

/-- The place `i` lies in the word `k`. -/
theorem div_eq_of_window {i k : Nat} (least : w * k ≤ i) (most : i < w * (k + 1)) :
    i / w = k := by
  have positive : 0 < w := by
    apply Nat.pos_of_ne_zero
    intro isZero
    rw [isZero, Nat.zero_mul] at most
    exact Nat.not_lt_zero _ most
  apply Nat.le_antisymm
  · exact Nat.le_of_lt_succ ((Nat.div_lt_iff_lt_mul positive).mpr (by rwa [Nat.mul_comm]))
  · exact (Nat.le_div_iff_mul_le positive).mpr (by rwa [Nat.mul_comm])

/-- A change of one word is a change of its bits. -/
theorem bitIn_modify (words : List (BitVec w)) (k : Nat) (f : BitVec w → BitVec w) (i : Nat) :
    bitIn (words.modify k f) i =
      if i / w = k ∧ k < words.length then (f (words.getD k 0)).getLsbD (i % w)
      else bitIn words i := by
  rw [bitIn_eq_getElem?, List.getElem?_modify]
  by_cases here : i / w = k ∧ k < words.length
  · rcases here with ⟨same, inside⟩
    subst same
    rw [if_pos ⟨rfl, inside⟩, List.getElem?_eq_getElem inside, List.getD_eq_getElem _ _ inside]
    simp
  · rw [if_neg here, bitIn_eq_getElem?]
    by_cases same : i / w = k
    · have outside : words.length ≤ i / w := by
        by_contra inside
        exact here ⟨same, by omega⟩
      rw [List.getElem?_eq_none outside]
      rfl
    · simp [Ne.symm same]

/-- A change of the last item. -/
theorem modify_concat {α : Type*} (items : List α) (item : α) (f : α → α) :
    (items ++ [item]).modify items.length f = items ++ [f item] := by
  induction items with
  | nil => rfl
  | cons first rest ih =>
      rw [List.cons_append, List.length_cons, List.modify_succ_cons, ih, List.cons_append]

/-- Two rows combined word by word are combined bit by bit. -/
theorem bitIn_zipWith {first second : List (BitVec w)} {f : BitVec w → BitVec w → BitVec w}
    {g : Bool → Bool → Bool} (long : first.length ≤ second.length)
    (bitwise : ∀ x y : BitVec w, ∀ j, j < w → (f x y).getLsbD j = g (x.getLsbD j) (y.getLsbD j))
    {i : Nat} (inside : i < w * first.length) :
    bitIn (List.zipWith f first second) i = g (bitIn first i) (bitIn second i) := by
  have positive : 0 < w := Nat.pos_of_mul_pos_right (Nat.lt_of_le_of_lt (Nat.zero_le i) inside)
  have place : i / w < first.length := Nat.div_lt_of_lt_mul inside
  have place' : i / w < second.length := Nat.lt_of_lt_of_le place long
  rw [bitIn_eq_getElem?, bitIn_eq_getElem?, bitIn_eq_getElem?, List.getElem?_zipWith,
    List.getElem?_eq_getElem place, List.getElem?_eq_getElem place']
  exact bitwise _ _ _ (Nat.mod_lt _ positive)

/-- A row changed word by word is changed bit by bit. -/
theorem bitIn_mapIdx {words : List (BitVec w)} {f : Nat → BitVec w → BitVec w} {i : Nat}
    (inside : i < w * words.length) :
    bitIn (words.mapIdx f) i = (f (i / w) (words.getD (i / w) 0)).getLsbD (i % w) := by
  have place : i / w < words.length := Nat.div_lt_of_lt_mul inside
  rw [bitIn_eq_getElem?, List.getElem?_mapIdx, List.getElem?_eq_getElem place,
    List.getD_eq_getElem _ _ place]
  rfl

theorem bitIn_take {words : List (BitVec w)} {n i : Nat} (inside : i < w * n) :
    bitIn (words.take n) i = bitIn words i := by
  have place : i / w < n := Nat.div_lt_of_lt_mul inside
  rw [bitIn_eq_getElem?, bitIn_eq_getElem?, List.getElem?_take_of_lt place]

/-- Rows of one length with the same bits are the same. -/
theorem words_ext {first second : List (BitVec w)} (long : first.length = second.length)
    (same : ∀ i, bitIn first i = bitIn second i) : first = second := by
  apply List.ext_getElem long
  intro k inside inside'
  apply BitVec.eq_of_getLsbD_eq
  intro j small
  have := same (w * k + j)
  have place : (w * k + j) / w = k := by
    apply div_eq_of_window (Nat.le_add_right _ _)
    rw [Nat.mul_add, Nat.mul_one]
    omega
  have rest : (w * k + j) % w = j := by
    rw [Nat.mul_add_mod, Nat.mod_eq_of_lt small]
  rw [bitIn_eq_getElem?, bitIn_eq_getElem?, place, rest, List.getElem?_eq_getElem inside,
    List.getElem?_eq_getElem inside'] at this
  exact this

/-! ### The ones of a word -/

/-- The places of the ones of a word, lowest first. -/
def ones (x : BitVec w) : List Nat := (List.range w).filter fun j => x.getLsbD j

theorem ones_zero : ones (0 : BitVec w) = [] := by
  unfold ones
  apply List.filter_eq_nil_iff.mpr
  intro j _ isOne
  simp at isOne

/-- The part of a range before a place, the place and the part after it. -/
theorem range_split {n c : Nat} (inside : c < n) :
    List.range n = List.range c ++ c :: (List.range (n - c - 1)).map fun j => c + 1 + j := by
  have parts : n = c + 1 + (n - c - 1) := by omega
  conv =>
    left
    rw [parts]
  rw [List.range_add, List.range_succ, List.append_assoc]
  rfl

/-- The lowest one comes first; clearing it leaves the others. -/
theorem filter_range_first {n c : Nat} {p : Nat → Bool} (inside : c < n) (holds : p c = true)
    (least : ∀ j, j < c → p j = false) :
    (List.range n).filter p = c :: (List.range n).filter fun j => p j && decide (j ≠ c) := by
  rw [range_split inside]
  have before : (List.range c).filter p = [] := by
    apply List.filter_eq_nil_iff.mpr
    intro j isBefore
    rw [least j (List.mem_range.mp isBefore)]
    exact Bool.false_ne_true
  have before' : ((List.range c).filter fun j => p j && decide (j ≠ c)) = [] := by
    apply List.filter_eq_nil_iff.mpr
    intro j isBefore
    rw [least j (List.mem_range.mp isBefore)]
    exact Bool.false_ne_true
  rw [List.filter_append, List.filter_append, before, before', List.filter_cons, if_pos holds,
    List.filter_cons, if_neg (by simp)]
  simp only [List.nil_append]
  congr 1
  apply List.filter_congr
  intro j isAfter
  rcases List.mem_map.mp isAfter with ⟨k, _, rfl⟩
  have other : c + 1 + k ≠ c := by omega
  simp [other]

/-- The highest one comes last; clearing it leaves the others. -/
theorem filter_range_last {n c : Nat} {p : Nat → Bool} (inside : c < n) (holds : p c = true)
    (greatest : ∀ j, c < j → p j = false) :
    (List.range n).filter p = ((List.range n).filter fun j => p j && decide (j < c)) ++ [c] := by
  rw [range_split inside]
  have after : ((List.range (n - c - 1)).map fun j => c + 1 + j).filter p = [] := by
    apply List.filter_eq_nil_iff.mpr
    intro j isAfter
    rcases List.mem_map.mp isAfter with ⟨k, _, rfl⟩
    rw [greatest _ (by omega)]
    exact Bool.false_ne_true
  have after' : (((List.range (n - c - 1)).map fun j => c + 1 + j).filter
      fun j => p j && decide (j < c)) = [] := by
    apply List.filter_eq_nil_iff.mpr
    intro j isAfter
    rcases List.mem_map.mp isAfter with ⟨k, _, rfl⟩
    rw [greatest _ (by omega)]
    exact Bool.false_ne_true
  rw [List.filter_append, List.filter_append, List.filter_cons, if_pos holds, after,
    List.filter_cons, if_neg (by simp), after', List.append_nil]
  congr 1
  apply List.filter_congr
  intro j isBefore
  simp [List.mem_range.mp isBefore]

/-- `x & (x - 1)` clears the lowest one. -/
theorem getLsbD_clear_lowest {x : BitVec w} (nonzero : x ≠ 0) {j : Nat} (small : j < w) :
    (x &&& (x - 1)).getLsbD j = (x.getLsbD j && decide (j ≠ x.ctz.toNat)) := by
  have lowest : x.getLsbD x.ctz.toNat = true := BitVec.getLsbD_true_ctz_of_ne_zero nonzero
  have below : ∀ i, i < x.ctz.toNat → x.getLsbD i = false := fun i isBelow =>
    BitVec.getLsbD_false_of_lt_ctz isBelow
  generalize x.ctz.toNat = c at lowest below
  have wide : c < w := BitVec.lt_of_getLsbD lowest
  -- the word is `2^c * (2 * q + 1)`
  have low : x.toNat % 2 ^ c = 0 := by
    apply Nat.eq_of_testBit_eq
    intro i
    rw [Nat.testBit_mod_two_pow, Nat.zero_testBit]
    by_cases isBelow : i < c
    · rw [show x.toNat.testBit i = x.getLsbD i from rfl, below i isBelow, Bool.and_false]
    · simp [isBelow]
  have odd : x.toNat / 2 ^ c % 2 = 1 := by
    have bit : x.toNat.testBit c = true := lowest
    rw [Nat.testBit_eq_decide_div_mod_eq] at bit
    exact of_decide_eq_true bit
  have power : 0 < 2 ^ c := Nat.two_pow_pos c
  have value : x.toNat = 2 ^ (c + 1) * (x.toNat / 2 ^ c / 2) + 2 ^ c := by
    have whole := Nat.div_add_mod x.toNat (2 ^ c)
    have half := Nat.div_add_mod (x.toNat / 2 ^ c) 2
    rw [low, Nat.add_zero] at whole
    rw [odd] at half
    rw [Nat.pow_succ, Nat.mul_assoc]
    calc x.toNat = 2 ^ c * (x.toNat / 2 ^ c) := whole.symm
      _ = 2 ^ c * (2 * (x.toNat / 2 ^ c / 2) + 1) := by rw [half]
      _ = 2 ^ c * (2 * (x.toNat / 2 ^ c / 2)) + 2 ^ c := by rw [Nat.mul_add, Nat.mul_one]
  generalize x.toNat / 2 ^ c / 2 = q at value
  have positive : 1 ≤ x.toNat := by omega
  have one : (1 : BitVec w).toNat = 1 := by
    have big : 1 < 2 ^ w := Nat.one_lt_two_pow (by omega)
    rw [show (1 : BitVec w) = BitVec.ofNat w 1 from rfl, BitVec.toNat_ofNat,
      Nat.mod_eq_of_lt big]
  have before : (x - 1).toNat = 2 ^ (c + 1) * q + (2 ^ c - 1) := by
    rw [BitVec.toNat_sub_of_le (by rw [BitVec.le_def, one]; exact positive), one]
    omega
  have smaller : 2 ^ c - 1 < 2 ^ (c + 1) := by
    rw [Nat.pow_succ]
    omega
  have same : 2 ^ c < 2 ^ (c + 1) := Nat.pow_lt_pow_right (by decide) (Nat.lt_succ_self c)
  rw [BitVec.getLsbD_and]
  rw [show (x - 1).getLsbD j = (x - 1).toNat.testBit j from rfl,
    show x.getLsbD j = x.toNat.testBit j from rfl, before, value,
    Nat.testBit_two_pow_mul_add _ smaller, Nat.testBit_two_pow_mul_add _ same]
  by_cases isLow : j < c + 1
  · rw [if_pos isLow, if_pos isLow, Nat.testBit_two_pow, Nat.testBit_two_pow_sub_one]
    by_cases isIt : c = j
    · subst isIt
      simp
    · simp [isIt]
  · rw [if_neg isLow, if_neg isLow]
    have other : j ≠ c := by omega
    simp [other]

/-- Forward: the lowest one, then the ones of `x & (x - 1)`. -/
theorem ones_low {x : BitVec w} (nonzero : x ≠ 0) :
    ones x = x.ctz.toNat :: ones (x &&& (x - 1)) := by
  have lowest : x.getLsbD x.ctz.toNat = true := BitVec.getLsbD_true_ctz_of_ne_zero nonzero
  unfold ones
  rw [filter_range_first (BitVec.lt_of_getLsbD lowest) lowest fun j isBelow =>
    BitVec.getLsbD_false_of_lt_ctz isBelow]
  congr 1
  apply List.filter_congr
  intro j inside
  exact (getLsbD_clear_lowest nonzero (List.mem_range.mp inside)).symm

/-- The place of the highest one. -/
def topBit (x : BitVec w) : Nat := w - 1 - x.clz.toNat

/-- `x & ((1 << top) - 1)` clears the highest one. -/
theorem getLsbD_clear_highest (x : BitVec w) {top j : Nat} (wide : top < w) (small : j < w) :
    (x &&& (1#w <<< top - 1)).getLsbD j = (x.getLsbD j && decide (j < top)) := by
  have power : (1#w <<< top).toNat = 2 ^ top := by
    have big : 2 ^ top < 2 ^ w := Nat.pow_lt_pow_right (by decide) wide
    rw [BitVec.toNat_shiftLeft, BitVec.toNat_ofNat, Nat.one_mod_two_pow_eq_one.mpr (by omega),
      Nat.one_shiftLeft, Nat.mod_eq_of_lt big]
  have one : (1 : BitVec w).toNat = 1 := by
    have big : 1 < 2 ^ w := Nat.one_lt_two_pow (by omega)
    rw [show (1 : BitVec w) = BitVec.ofNat w 1 from rfl, BitVec.toNat_ofNat,
      Nat.mod_eq_of_lt big]
  have before : (1#w <<< top - 1).toNat = 2 ^ top - 1 := by
    have positive : 0 < 2 ^ top := Nat.two_pow_pos top
    rw [BitVec.toNat_sub_of_le (by rw [BitVec.le_def, one, power]; exact positive), one, power]
  rw [BitVec.getLsbD_and, show (1#w <<< top - 1).getLsbD j = (1#w <<< top - 1).toNat.testBit j
    from rfl, before, Nat.testBit_two_pow_sub_one]

/-- Backward: the highest one comes last of all. -/
theorem ones_high {x : BitVec w} (nonzero : x ≠ 0) :
    ones x = ones (x &&& (1#w <<< topBit x - 1)) ++ [topBit x] := by
  have positive : 0 < w := by
    apply Nat.pos_of_ne_zero
    intro isZero
    subst isZero
    exact nonzero (BitVec.eq_of_getLsbD_eq fun j small => absurd small (Nat.not_lt_zero j))
  have highest : x.getLsbD (topBit x) = true :=
    BitVec.getLsbD_true_clz_of_ne_zero positive nonzero
  have wide : topBit x < w := BitVec.lt_of_getLsbD highest
  have above : ∀ j, topBit x < j → x.getLsbD j = false := by
    intro j isAbove
    have small := BitVec.toNat_lt_two_pow_sub_clz (x := x)
    rw [show x.getLsbD j = x.toNat.testBit j from rfl]
    apply Nat.testBit_lt_two_pow
    apply Nat.lt_of_lt_of_le small
    apply Nat.pow_le_pow_right (by decide)
    unfold topBit at isAbove
    omega
  unfold ones
  rw [filter_range_last wide highest above]
  congr 1
  apply List.filter_congr
  intro j inside
  exact (getLsbD_clear_highest x wide (List.mem_range.mp inside)).symm

/-- The number of ones is the population count. -/
theorem ones_length (x : BitVec w) : (ones x).length = x.cpop.toNat := by
  have upTo : ∀ n, x.cpopNatRec n 0 = ((List.range n).filter fun j => x.getLsbD j).length := by
    intro n
    induction n with
    | zero => rfl
    | succ n ih =>
        rw [BitVec.cpopNatRec_succ, BitVec.cpopNatRec_add, ih, List.range_succ,
          List.filter_append, List.length_append]
        cases isOne : x.getLsbD n with
        | false => simp [isOne]
        | true => simp [isOne]
  rw [BitVec.toNat_cpop, upTo w, ones]

/-! ### The ones of a row -/

/-- The places of the ones of a row, lowest first. -/
def onesIn (words : List (BitVec w)) : List Nat :=
  (List.range (w * words.length)).filter fun i => bitIn words i

theorem bitIn_cons_low {x : BitVec w} {words : List (BitVec w)} {j : Nat} (small : j < w) :
    bitIn (x :: words) j = x.getLsbD j := by
  rw [bitIn_eq_getElem?, Nat.div_eq_of_lt small, Nat.mod_eq_of_lt small]
  rfl

theorem bitIn_cons_high {x : BitVec w} {words : List (BitVec w)} (positive : 0 < w) (j : Nat) :
    bitIn (x :: words) (w + j) = bitIn words j := by
  rw [bitIn_eq_getElem?, bitIn_eq_getElem?, Nat.add_div_left j positive, Nat.add_mod_left]
  rfl

theorem bitIn_append_low {words more : List (BitVec w)} {i : Nat} (inside : i < w * words.length) :
    bitIn (words ++ more) i = bitIn words i := by
  have place : i / w < words.length := Nat.div_lt_of_lt_mul inside
  rw [bitIn_eq_getElem?, bitIn_eq_getElem?, List.getElem?_append_left place]

/-- The ones of the first word, then the ones of the others. -/
theorem onesIn_cons (x : BitVec w) (words : List (BitVec w)) (positive : 0 < w) :
    onesIn (x :: words) = ones x ++ (onesIn words).map fun i => w + i := by
  unfold onesIn ones
  have size : w * (x :: words).length = w + w * words.length := by
    rw [List.length_cons, Nat.mul_add, Nat.mul_one, Nat.add_comm]
  rw [size, List.range_add, List.filter_append]
  congr 1
  · apply List.filter_congr
    intro j inside
    exact bitIn_cons_low (List.mem_range.mp inside)
  · rw [List.filter_map]
    congr 1
    apply List.filter_congr
    intro j _
    exact bitIn_cons_high positive j

/-- The ones of the last word come after the ones of the others. -/
theorem onesIn_concat (words : List (BitVec w)) (x : BitVec w) :
    onesIn (words ++ [x]) = onesIn words ++ (ones x).map fun j => w * words.length + j := by
  unfold onesIn ones
  have size : w * (words ++ [x]).length = w * words.length + w := by
    rw [List.length_append, List.length_singleton, Nat.mul_add, Nat.mul_one]
  rw [size, List.range_add, List.filter_append]
  congr 1
  · apply List.filter_congr
    intro j inside
    exact bitIn_append_low (List.mem_range.mp inside)
  · rw [List.filter_map]
    congr 1
    apply List.filter_congr
    intro j inside
    have small := List.mem_range.mp inside
    have place : (w * words.length + j) / w = words.length := by
      apply div_eq_of_window (Nat.le_add_right _ _)
      rw [Nat.mul_add, Nat.mul_one]
      omega
    rw [Function.comp, bitIn_eq_getElem?, place, Nat.mul_add_mod, Nat.mod_eq_of_lt small,
      List.getElem?_append_right (Nat.le_refl _), Nat.sub_self]
    rfl

/-- The ones of a row, counted word by word. -/
theorem onesIn_length (words : List (BitVec w)) (positive : 0 < w) :
    (onesIn words).length = (words.map fun x => x.cpop.toNat).sum := by
  induction words with
  | nil => rfl
  | cons x words ih =>
      rw [onesIn_cons x words positive, List.length_append, List.length_map, ih, ones_length,
        List.map_cons, List.sum_cons]

end Bunx.Lib
