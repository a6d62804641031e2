/-
Module: Bunx.Collections.FifoItems
Purpose: Reading, writing, putting back and taking out items, on the queue a LinearFifo
  holds.
Trusted boundary: none
Main exports:
  discard_spec, readItem_spec, readLoop_spec, writeAssumeCapacity_spec,
  writeItemAssumeCapacity_spec, rewind_spec, copyToReadable_spec, orderedRemoveItem_spec
-/
import Bunx.Collections.FifoQueue

namespace Bunx.Collections

open Lib

variable {α : Type}

namespace LinearFifo

variable {s : LinearFifo α}

/-- A queue on the same buffer with its head moved. -/
theorem Inv.moved (inv : s.Inv) {head count : Nat} (few : count ≤ s.buf.length)
    (inside : 0 < s.buf.length → head < s.buf.length) (empty : s.buf.length = 0 → head = 0) :
    ({ s with head := head, count := count } : LinearFifo α).Inv :=
  ⟨few, inside, empty, inv.static⟩

theorem discard_spec (inv : s.Inv) (fits : s.IndexFits) {n : Nat} (passed : n ≤ s.count) :
    ∃ s', s.discard n = some s' ∧ s'.Inv ∧ s'.toList = s.toList.drop n ∧
      s'.buf = s.buf ∧ s'.kind = s.kind ∧ s'.count = s.count - n := by
  have few := inv.few
  rw [discard, wrapIndex_eq inv fits (by omega)]
  refine ⟨_, rfl, inv.moved (by omega) (fun some => mod_lt_of_pos some _) ?_,
    view_drop passed few, rfl, rfl, rfl⟩
  intro isEmpty
  have start := inv.empty isEmpty
  rw [isEmpty, Nat.mod_zero]
  omega

theorem readItem_spec (inv : s.Inv) (fits : s.count ≠ 0 → s.IndexFits) :
    ∃ s', s.readItem = some (s.toList.head?, s') ∧ s'.Inv ∧
      s'.toList = s.toList.drop 1 := by
  have length := toList_length inv
  rw [readItem]
  by_cases none : s.count = 0
  · have isEmpty : s.toList = [] := List.eq_nil_of_length_eq_zero (length.trans none)
    rw [if_pos none, isEmpty]
    exact ⟨s, rfl, inv, isEmpty⟩
  · have few := inv.few
    have inside := inv.inside (by omega)
    have first : s.toList[0]? = s.buf[s.head]? := by
      rw [toList, view_getElem? inside few (by omega), ringIndex, Nat.add_zero,
        if_pos inside]
    obtain ⟨s', discarded, inv', rest, _⟩ := discard_spec inv (fits none)
      (show 1 ≤ s.count by omega)
    rw [if_neg none, List.head?_eq_getElem?, first, List.getElem?_eq_getElem inside,
      discarded]
    exact ⟨s', rfl, inv', rest⟩

/-- The first readable slice is the part of the queue before the end of the buffer. -/
theorem readableSlice_zero (inv : s.Inv) :
    s.readableSlice 0 = some (s.toList.take (min s.count (s.buf.length - s.head))) := by
  have few := inv.few
  rw [readableSlice, readableRange, if_neg (Nat.not_lt_zero _), bufLen, Nat.add_zero]
  rcases Nat.eq_zero_or_pos s.buf.length with isEmpty | some
  · have none : s.count = 0 := by omega
    have start := inv.empty isEmpty
    have nothing : s.buf = [] := List.eq_nil_of_length_eq_zero isEmpty
    rw [if_pos (by omega), sliceOf, if_pos (by dsimp only; omega), none, nothing]
    simp
  · have inside := inv.inside some
    rw [if_neg (by omega), sliceOf, if_pos (by dsimp only; omega), toList, view,
      List.rotate_eq_drop_append_take (Nat.le_of_lt inside), List.take_take,
      List.take_append_of_le_length]
    · congr 2
      dsimp only
      omega
    · rw [List.length_drop]
      omega

/-- The loop of `read` takes from the front of the queue. -/
theorem readLoop_spec {fuel left : Nat} (inv : s.Inv)
    (fits : s.count ≠ 0 → left ≠ 0 → s.IndexFits) (enough : left < fuel) :
    ∃ s', s.readLoop fuel left = some (s.toList.take left, s') ∧ s'.Inv ∧
      s'.toList = s.toList.drop left := by
  induction fuel generalizing s left with
  | zero => cases enough
  | succ fuel ih =>
      rw [readLoop]
      by_cases noneLeft : left = 0
      · rw [if_pos noneLeft, noneLeft]
        exact ⟨s, rfl, inv, rfl⟩
      have length := toList_length inv
      have few := inv.few
      rw [if_neg noneLeft, readableSlice_zero inv]
      simp only [Option.bind_eq_bind, Option.bind_some]
      have sliceLength : (s.toList.take (min s.count (s.buf.length - s.head))).length =
          min s.count (s.buf.length - s.head) := by
        rw [List.length_take, length]
        omega
      rw [sliceLength]
      by_cases nothing : s.count = 0
      · have isEmpty : s.toList = [] := List.eq_nil_of_length_eq_zero (length.trans nothing)
        rw [if_pos (by omega), isEmpty]
        refine ⟨s, ?_, inv, ?_⟩
        · rw [List.take_nil]
          rfl
        · rw [List.drop_nil]
          exact isEmpty
      have inside := inv.inside (by omega)
      rw [if_neg (by omega)]
      generalize isTurn : min (min s.count (s.buf.length - s.head)) left = n
      obtain ⟨s1, discarded, inv1, rest, buf, kind, count⟩ :=
        discard_spec inv (fits nothing noneLeft) (show n ≤ s.count by omega)
      have fits1 : s1.count ≠ 0 → left - n ≠ 0 → s1.IndexFits := by
        intro _ _
        rw [IndexFits, buf, kind]
        exact fits nothing noneLeft
      obtain ⟨s', looped, inv', rest'⟩ := ih inv1 fits1
        (show left - n < fuel by omega)
      rw [discarded]
      simp only [Option.bind_some, looped]
      refine ⟨s', ?_, inv', ?_⟩
      · have split : left = n + (left - n) := by omega
        rw [rest, List.take_take, Nat.min_eq_left (by omega)]
        conv_rhs => rw [split, List.take_add]
        rfl
      · rw [rest', rest, List.drop_drop]
        congr 1
        omega

/-! ### Writing -/

theorem set_eq_overwrite {l : List α} {i : Nat} (inside : i < l.length) (x : α) :
    l.set i x = overwrite l i [x] := by
  rw [overwrite, List.set_eq_take_append_cons_drop, if_pos inside]
  simp

theorem writeItemAssumeCapacity_spec (inv : s.Inv) (fits : s.IndexFits) (item : α)
    (room : s.count + 1 ≤ s.buf.length) :
    ∃ s', s.writeItemAssumeCapacity item = some s' ∧ s'.Inv ∧
      s'.toList = s.toList ++ [item] := by
  have inside := inv.inside (by omega)
  have slot := ringIndex_lt (i := s.count) inside (by omega)
  rw [writeItemAssumeCapacity, wrapIndex_eq inv fits (by omega),
    ringIndex_eq_mod inside (by omega)]
  simp only [Option.bind_eq_bind, Option.bind_some]
  rw [set_eq_overwrite slot]
  have fitsSlot : ringIndex s.buf.length s.head s.count + [item].length ≤ s.buf.length :=
    slot
  have length := overwrite_length fitsSlot
  refine ⟨_, rfl, ⟨?_, ?_, ?_, ?_⟩, view_append inside room fitsSlot⟩
  · rw [length]
    exact room
  · rw [length]
    exact inv.inside
  · rw [length]
    exact inv.empty
  · rw [length]
    exact inv.static

/-- The loop of `write_assume_capacity` appends. -/
theorem writeAssumeCapacity_spec {fuel : Nat} {src : List α} (inv : s.Inv)
    (room : s.count + src.length ≤ s.buf.length) (enough : src.length < fuel) :
    ∃ s', s.writeAssumeCapacity fuel src = some s' ∧ s'.Inv ∧
      s'.toList = s.toList ++ src := by
  induction fuel generalizing s src with
  | zero => cases enough
  | succ fuel ih =>
      rw [writeAssumeCapacity]
      by_cases isEmpty : src.length = 0
      · rw [if_pos isEmpty, List.eq_nil_of_length_eq_zero isEmpty, List.append_nil]
        exact ⟨s, rfl, inv, rfl⟩
      have inside := inv.inside (by omega)
      have slot := ringIndex_lt (i := s.count) inside (by omega)
      obtain ⟨stop, isRange, before, within⟩ : ∃ stop,
          s.writableRange = (ringIndex s.buf.length s.head s.count, stop) ∧
          ringIndex s.buf.length s.head s.count < stop ∧ stop ≤ s.buf.length := by
        rw [writableRange, writableLength, bufLen, ringIndex]
        split
        · exact ⟨_, rfl, by omega, Nat.le_refl _⟩
        · exact ⟨_, rfl, by omega, by omega⟩
      rw [if_neg isEmpty, isRange]
      simp only [sliceOf, if_pos (And.intro (Nat.le_of_lt before) within),
        Option.bind_eq_bind, Option.bind_some, List.length_take, List.length_drop]
      generalize isTurn : min (min (stop - ringIndex s.buf.length s.head s.count)
        (s.buf.length - ringIndex s.buf.length s.head s.count)) src.length = n
      have taken : (src.take n).length = n := by
        rw [List.length_take]
        omega
      have fits : ringIndex s.buf.length s.head s.count + (src.take n).length ≤
          s.buf.length := by omega
      have length := overwrite_length fits
      have inv1 : ({ s with
          buf := overwrite s.buf (ringIndex s.buf.length s.head s.count) (src.take n)
          count := s.count + n } : LinearFifo α).Inv := by
        refine ⟨?_, ?_, ?_, ?_⟩
        · rw [length]
          dsimp only
          omega
        · rw [length]
          exact inv.inside
        · rw [length]
          exact inv.empty
        · rw [length]
          exact inv.static
      have rest : (src.drop n).length = src.length - n := List.length_drop
      obtain ⟨s', written, inv', appended⟩ := ih inv1
        (show s.count + n + (src.drop n).length ≤ _ by rw [length]; omega)
        (show (src.drop n).length < fuel by omega)
      refine ⟨s', written, inv', ?_⟩
      have here := view_append inside (by omega) fits
      rw [taken] at here
      rw [appended, toList, here, List.append_assoc, List.take_append_drop]
      rfl

/-! ### Putting back -/

/-- `rewind` puts items in front whatever their slots hold. -/
theorem rewind_spec (inv : s.Inv) (fits : s.IndexFits) {n : Nat}
    (room : s.count + n ≤ s.buf.length) :
    ∃ s' front, s.rewind n = some s' ∧ s'.Inv ∧ front.length = n ∧
      s'.toList = front ++ s.toList ∧ s'.count = s.count + n := by
  rw [rewind, bufLen, wrapIndex_eq inv fits (Nat.sub_le ..)]
  refine ⟨_, _, rfl, inv.moved room (fun some => mod_lt_of_pos some _) ?_, ?_,
    view_prepend room, rfl⟩
  · intro isEmpty
    have start := inv.empty isEmpty
    rw [isEmpty, Nat.mod_zero]
    omega
  · have fewer : n ≤ s.buf.length := by omega
    exact view_length fewer

/-- Writing over readable slots, from the item `k` on. -/
theorem overwrite_spec (inv : s.Inv) (k : Nat) (src : List α)
    (within : k + src.length ≤ s.count) (positive : 0 < s.buf.length)
    (fits : ringIndex s.buf.length s.head k + src.length ≤ s.buf.length) :
    ({ s with buf := overwrite s.buf (ringIndex s.buf.length s.head k) src } :
        LinearFifo α).Inv ∧
      ({ s with buf := overwrite s.buf (ringIndex s.buf.length s.head k) src } :
        LinearFifo α).toList = overwrite s.toList k src := by
  have length := overwrite_length fits
  refine ⟨⟨?_, ?_, ?_, ?_⟩, view_overwrite (inv.inside positive) inv.few within fits⟩
  · rw [length]
    exact inv.few
  · rw [length]
    exact inv.inside
  · rw [length]
    exact inv.empty
  · rw [length]
    exact inv.static

/-- The copies of `unget` overwrite the first items. -/
theorem copyToReadable_spec (inv : s.Inv) {src : List α} (room : src.length ≤ s.count) :
    ∃ s', s.copyToReadable src = some s' ∧ s'.Inv ∧
      s'.toList = src ++ s.toList.drop src.length := by
  have few := inv.few
  have length := toList_length inv
  rw [copyToReadable, readableSlice_zero inv]
  simp only [Option.bind_eq_bind, Option.bind_some]
  rw [List.length_take, length]
  rcases Nat.eq_zero_or_pos s.buf.length with isEmpty | positive
  · have none : src = [] := List.eq_nil_of_length_eq_zero (by omega)
    subst none
    refine ⟨s, ?_, inv, rfl⟩
    rw [if_neg (by simp), List.take_nil, overwrite_nil]
    rfl
  have inside := inv.inside positive
  have start : s.readableRange 0 = (ringIndex s.buf.length s.head 0,
      min (s.head + s.count) s.buf.length) := by
    rw [readableRange, if_neg (Nat.not_lt_zero _), bufLen, ringIndex, Nat.add_zero,
      if_neg (by omega), if_pos inside]
  generalize isPiece : min (min s.count (s.buf.length - s.head)) s.count = piece
  have first : (src.take (min piece src.length)).length = min piece src.length := by
    rw [List.length_take]
    omega
  have fits : ringIndex s.buf.length s.head 0 + (src.take (min piece src.length)).length ≤
      s.buf.length := by
    rw [first, ringIndex, Nat.add_zero, if_pos inside]
    omega
  obtain ⟨inv1, over1⟩ := overwrite_spec inv 0 (src.take (min piece src.length))
    (by omega) positive fits
  have length1 := overwrite_length fits
  rw [start]
  by_cases more : piece < src.length
  · have wholePiece : piece = s.buf.length - s.head := by omega
    have atEnd : ringIndex s.buf.length s.head piece = 0 := by
      rw [ringIndex, if_neg (by omega)]
      omega
    have range : ({ s with
        buf := overwrite s.buf (ringIndex s.buf.length s.head 0)
          (src.take (min piece src.length)) } : LinearFifo α).readableRange piece =
        (ringIndex s.buf.length s.head piece, s.count - piece) := by
      rw [readableRange, bufLen, length1, atEnd]
      dsimp only
      rw [if_neg (by omega), if_pos (by omega), wholePiece]
      congr 1 <;> omega
    have rest : (src.drop piece).length = src.length - piece := List.length_drop
    rw [if_pos more, readableSlice, range, sliceOf, if_pos (by
      rw [atEnd, length1]
      dsimp only
      omega)]
    simp only [Option.bind_some]
    rw [if_pos (by
      rw [List.length_take, List.length_drop, atEnd, length1]
      omega)]
    obtain ⟨inv2, over2⟩ := overwrite_spec inv1 piece (src.drop piece)
      (by dsimp only; omega) (by rw [length1]; exact positive)
      (by rw [length1, atEnd]; omega)
    rw [length1] at inv2 over2
    refine ⟨_, rfl, inv2, ?_⟩
    have shorter : min piece src.length = piece := by omega
    have joined : overwrite (overwrite s.toList 0 (src.take piece))
        (0 + (src.take piece).length) (src.drop piece) =
        overwrite s.toList 0 (src.take piece ++ src.drop piece) := by
      apply overwrite_append
      rw [List.length_take, length, rest]
      omega
    rw [List.take_append_drop, List.length_take, shorter, Nat.zero_add] at joined
    rw [over2, over1, shorter, joined, overwrite_zero]
  · rw [if_neg more]
    refine ⟨_, rfl, inv1, ?_⟩
    have whole : src.take (min piece src.length) = src := List.take_of_length_le (by omega)
    rw [over1, whole, overwrite_zero]

/-! ### Taking out -/

theorem shiftDownOne_length (l : List α) : (shiftDownOne l).length = l.length := by
  rw [shiftDownOne]
  split
  · rfl
  · rw [List.length_append, List.length_drop, List.length_drop]
    omega

theorem shiftDownOne_getElem? (l : List α) (i : Nat) :
    (shiftDownOne l)[i]? = if i + 1 < l.length then l[i + 1]? else l[i]? := by
  rw [shiftDownOne]
  split
  next short => rw [if_neg (by omega)]
  next long =>
    rw [List.getElem?_append, List.length_drop, List.getElem?_drop, List.getElem?_drop]
    split
    next early =>
      rw [if_pos (by omega), Nat.add_comm]
    next late =>
      rw [if_neg (by omega)]
      rcases Nat.lt_or_ge i l.length with inside | outside
      · congr 1
        omega
      · rw [List.getElem?_eq_none (by omega), List.getElem?_eq_none outside]

/-- Behind `i` every slot takes the next one's item. -/
theorem shiftTail_getElem? (l : List α) (i j : Nat) (inside : i ≤ l.length) :
    (l.take i ++ shiftDownOne (l.drop i))[j]? =
      if i ≤ j ∧ j + 1 < l.length then l[j + 1]? else l[j]? := by
  have front : (l.take i).length = i := by
    rw [List.length_take]
    omega
  rw [List.getElem?_append, front, shiftDownOne_getElem?, List.getElem?_take,
    List.getElem?_drop, List.getElem?_drop, List.length_drop]
  split
  next early => rw [if_neg (by omega)]
  next late =>
    split
    next more =>
      rw [if_pos (by omega)]
      congr 1
      omega
    next last =>
      rw [if_neg (by omega)]
      congr 1
      omega

theorem orderedRemoveItem_spec (inv : s.Inv) {offset : Nat} (present : offset < s.count)
    (fits : offset = 0 ∨ s.Wrapped → s.IndexFits) :
    ∃ s', s.orderedRemoveItem offset = some s' ∧ s'.Inv ∧
      s'.toList = s.toList.eraseIdx offset := by
  have few := inv.few
  have inside := inv.inside (by omega)
  have kept {buf : List α} (length : buf.length = s.buf.length) :
      ({ s with buf := buf, count := s.count - 1 } : LinearFifo α).Inv := by
    refine ⟨?_, ?_, ?_, ?_⟩
    · rw [length]
      exact Nat.le_trans (Nat.sub_le ..) few
    · rw [length]
      exact inv.inside
    · rw [length]
      exact inv.empty
    · rw [length]
      exact inv.static
  rw [orderedRemoveItem]
  by_cases first : offset = 0
  · obtain ⟨s', discarded, inv', rest, _⟩ := discard_spec inv (fits (.inl first))
      (show 1 ≤ s.count by omega)
    rw [if_pos first, first, List.eraseIdx_zero, ← List.drop_one]
    exact ⟨s', discarded, inv', rest⟩
  rw [if_neg first, bufLen]
  by_cases straight : s.count ≤ s.buf.length - s.head
  · have length : (s.buf.take (s.head + offset) ++
        shiftDownOne (s.buf.drop (s.head + offset))).length = s.buf.length := by
      rw [List.length_append, shiftDownOne_length, ← List.length_append,
        List.take_append_drop]
    rw [if_pos straight]
    refine ⟨_, rfl, kept length, view_eraseIdx inside few present length ?_⟩
    intro k within
    rw [shiftTail_getElem? _ _ _ (by omega)]
    unfold ringIndex
    grind
  rw [if_neg straight, wrapIndex_eq inv (fits (.inr (Nat.lt_of_not_le straight)))
    (by omega), ringIndex_eq_mod inside (by omega)]
  simp only [Option.bind_eq_bind, Option.bind_some]
  by_cases small : s.head + offset < s.buf.length
  · have index : ringIndex s.buf.length s.head offset = s.head + offset := if_pos small
    rw [index, if_neg (by omega), List.getElem?_eq_getElem (by omega)]
    simp only [Option.bind_some]
    have length1 : (s.buf.take (s.head + offset) ++
        shiftDownOne (s.buf.drop (s.head + offset))).length = s.buf.length := by
      rw [List.length_append, shiftDownOne_length, ← List.length_append,
        List.take_append_drop]
    have shifted := fun j => shiftTail_getElem? s.buf (s.head + offset) j (Nat.le_of_lt small)
    revert length1 shifted
    generalize s.buf.take (s.head + offset) ++ shiftDownOne (s.buf.drop (s.head + offset)) =
      buf1
    intro length1 shifted
    have fitsPiece : 0 + (shiftDownOne ((buf1.set (s.buf.length - 1) s.buf[0]).take
        (s.head + s.count - s.buf.length))).length ≤
        (buf1.set (s.buf.length - 1) s.buf[0]).length := by
      rw [shiftDownOne_length, List.length_take]
      omega
    have length := overwrite_length fitsPiece
    rw [List.length_set, length1] at length
    refine ⟨_, rfl, kept length, view_eraseIdx inside few present length ?_⟩
    intro k within
    have start : s.buf[0]? = some s.buf[0] := List.getElem?_eq_getElem (by omega)
    rw [overwrite_getElem? fitsPiece, shiftDownOne_length, shiftDownOne_getElem?,
      List.length_take, List.length_set, List.getElem?_take, List.getElem?_take,
      List.getElem?_set, List.getElem?_set, shifted, shifted]
    unfold ringIndex
    grind
  · have index : ringIndex s.buf.length s.head offset = s.head + offset - s.buf.length :=
      if_neg small
    rw [index, if_pos (by omega), sliceOf, if_pos (by omega)]
    simp only [Option.bind_some]
    have fitsPiece : s.head + offset - s.buf.length +
        (shiftDownOne ((s.buf.drop (s.head + offset - s.buf.length)).take
          (s.head + s.count - s.buf.length - (s.head + offset - s.buf.length)))).length ≤
        s.buf.length := by
      rw [shiftDownOne_length, List.length_take, List.length_drop]
      omega
    have length := overwrite_length fitsPiece
    refine ⟨_, rfl, kept length, view_eraseIdx inside few present length ?_⟩
    intro k within
    rw [overwrite_getElem? fitsPiece, shiftDownOne_length, shiftDownOne_getElem?,
      List.length_take, List.length_drop, List.getElem?_take, List.getElem?_take,
      List.getElem?_drop, List.getElem?_drop]
    unfold ringIndex
    grind

end LinearFifo

end Bunx.Collections
