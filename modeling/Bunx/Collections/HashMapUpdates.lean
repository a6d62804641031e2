/-
Module: Bunx.Collections.HashMapUpdates
Purpose: Insertion with displacement, writes through the value pointer and deletion with
  backward shift keep the slots ordered and are the updates of the finite map.
Trusted boundary: none
Main exports:
  Inserts, Inserts.slots, Inserts.holds, modify_spec, Closed, shiftBack_closed, Closed.slots,
  Closed.holds
-/
import Bunx.Collections.HashMapSlots

namespace Bunx.Collections

variable {K V : Type} [Inhabited K] {hash : K → Nat} {used : Set K} {shift : Nat}
  {entries moved : List (Entry K V)} {it e : Entry K V} {key : K} {p q : Nat}

/-! ### Insertion -/

/-- Where an insertion takes place: a new key where its look-up stops, and the first empty slot
from there on. -/
structure Inserts (hash : K → Nat) (used : Set K) (shift : Nat) (entries moved : List (Entry K V))
    (it e : Entry K V) (p q : Nat) : Prop where
  isUsed : it.key ∈ used
  hashed : it.hash = hash it.key
  stops : Stops entries (hash it.key) (homeSlot shift (hash it.key)) p e
  absent : Absent entries it.key
  after : p ≤ q
  free : ∃ b, entries[q]? = some b ∧ b.isEmpty = true
  run : ∀ x, p ≤ x → x < q → Filled entries x
  moved : Moved entries moved it p q

/-- An entry of the new slots is the new one or comes from its slot or the one below. -/
theorem Inserts.origin (inserts : Inserts hash used shift entries moved it e p q) {x : Nat}
    {a : Entry K V} (isThere : moved[x]? = some a) :
    (x = p ∧ a = it) ∨ ((x < p ∨ q < x) ∧ entries[x]? = some a) ∨
      (p < x ∧ x ≤ q ∧ entries[x - 1]? = some a) := by
  have isMoved := inserts.moved x
  rw [isThere] at isMoved
  by_cases inRun : p ≤ x ∧ x ≤ q
  · rw [if_pos inRun] at isMoved
    by_cases isFirst : x = p
    · rw [if_pos isFirst] at isMoved
      exact .inl ⟨isFirst, Option.some.inj isMoved⟩
    · rw [if_neg isFirst] at isMoved
      exact .inr (.inr ⟨by omega, inRun.2, isMoved.symm⟩)
  · rw [if_neg inRun] at isMoved
    exact .inr (.inl ⟨by omega, isMoved.symm⟩)

theorem Inserts.filled_it (hashing : Hashing hash used)
    (inserts : Inserts hash used shift entries moved it e p q) : it.isEmpty = false := by
  apply isEmpty_false_of_lt
  rw [inserts.hashed]
  exact hashing.small _ inserts.isUsed

/-- The slots that held an entry still do, and so does the whole run. -/
theorem Inserts.filled (hashing : Hashing hash used)
    (inserts : Inserts hash used shift entries moved it e p q) {x : Nat}
    (wasFilled : Filled entries x ∨ (p ≤ x ∧ x ≤ q)) : Filled moved x := by
  unfold Filled
  rw [inserts.moved x]
  by_cases inRun : p ≤ x ∧ x ≤ q
  · rw [if_pos inRun]
    by_cases isFirst : x = p
    · rw [if_pos isFirst]
      exact ⟨it, rfl, inserts.filled_it hashing⟩
    · rw [if_neg isFirst]
      exact inserts.run (x - 1) (by omega) (by omega)
  · rw [if_neg inRun]
    rcases wasFilled with filled | inside
    · exact filled
    · exact absurd inside inRun

/-- Insertion keeps the slots ordered. -/
theorem Inserts.slots (hashing : Hashing hash used) (slots : Slots hash used shift entries)
    (inserts : Inserts hash used shift entries moved it e p q) :
    Slots hash used shift moved := by
  have stops := inserts.stops
  have least : ∀ {j : Nat} {a : Entry K V}, j < p → entries[j]? = some a → a.isEmpty = false →
      a.hash < it.hash := by
    intro j a before isThere isFilled
    rw [inserts.hashed]
    exact slots.least stops before isThere isFilled
  have larger : ∀ {j : Nat} {a : Entry K V}, p ≤ j → entries[j]? = some a → a.isEmpty = false →
      it.hash < a.hash := by
    intro j a after isThere isFilled
    rw [inserts.hashed]
    exact Slots.larger hashing inserts.isUsed slots stops inserts.absent after isThere isFilled
  have after := inserts.after
  refine { sorted := ?_, home := ?_, noGap := ?_, keyed := ?_, placeholder := ?_ }
  · intro i j a b lt isA isB filledA filledB
    rcases inserts.origin isA with ⟨rfl, rfl⟩ | ⟨placeA, oldA⟩ | ⟨lowA, highA, oldA⟩
    · rcases inserts.origin isB with ⟨rfl, rfl⟩ | ⟨placeB, oldB⟩ | ⟨lowB, highB, oldB⟩
      · exact absurd lt (Nat.lt_irrefl _)
      · exact larger (by omega) oldB filledB
      · exact larger (by omega) oldB filledB
    · rcases inserts.origin isB with ⟨rfl, rfl⟩ | ⟨placeB, oldB⟩ | ⟨lowB, highB, oldB⟩
      · exact least lt oldA filledA
      · exact slots.sorted lt oldA oldB filledA filledB
      · exact slots.sorted (by omega) oldA oldB filledA filledB
    · rcases inserts.origin isB with ⟨rfl, rfl⟩ | ⟨placeB, oldB⟩ | ⟨lowB, highB, oldB⟩
      · omega
      · exact slots.sorted (by omega) oldA oldB filledA filledB
      · exact slots.sorted (by omega) oldA oldB filledA filledB
  · intro i a isA filledA
    rcases inserts.origin isA with ⟨rfl, rfl⟩ | ⟨_, oldA⟩ | ⟨_, _, oldA⟩
    · rw [inserts.hashed]
      exact stops.after
    · exact slots.home oldA filledA
    · exact Nat.le_trans (slots.home oldA filledA) (Nat.sub_le _ _)
  · intro i j a isA filledA near below
    apply inserts.filled hashing
    rcases inserts.origin isA with ⟨rfl, rfl⟩ | ⟨_, oldA⟩ | ⟨_, _, oldA⟩
    · rw [inserts.hashed] at near
      exact .inl (stops.filled hashing inserts.isUsed near below)
    · exact .inl (slots.noGap oldA filledA near below)
    · by_cases isLast : j = i - 1
      · exact .inr (by omega)
      · exact .inl (slots.noGap oldA filledA near (by omega))
  · intro i a isA filledA
    rcases inserts.origin isA with ⟨rfl, rfl⟩ | ⟨_, oldA⟩ | ⟨_, _, oldA⟩
    · exact ⟨inserts.isUsed, inserts.hashed⟩
    · exact slots.keyed oldA filledA
    · exact slots.keyed oldA filledA
  · intro i a isA emptyA
    rcases inserts.origin isA with ⟨rfl, rfl⟩ | ⟨_, oldA⟩ | ⟨_, _, oldA⟩
    · rw [inserts.filled_it hashing] at emptyA
      cases emptyA
    · exact slots.placeholder oldA emptyA
    · exact slots.placeholder oldA emptyA

/-- An entry of the old slots has its place in the new ones. -/
theorem Inserts.kept (inserts : Inserts hash used shift entries moved it e p q) {x : Nat}
    {a : Entry K V} (isThere : entries[x]? = some a) (isFilled : a.isEmpty = false) :
    ∃ y : Nat, moved[y]? = some a := by
  by_cases inRun : p ≤ x ∧ x < q
  · refine ⟨x + 1, ?_⟩
    rw [inserts.moved, if_pos (show p ≤ x + 1 ∧ x + 1 ≤ q by omega),
      if_neg (show x + 1 ≠ p by omega), Nat.add_sub_cancel, isThere]
  · have notFree : x ≠ q := by
      rintro rfl
      obtain ⟨b, isB, isEmpty⟩ := inserts.free
      rw [isThere] at isB
      cases isB
      rw [isFilled] at isEmpty
      cases isEmpty
    refine ⟨x, ?_⟩
    rw [inserts.moved, if_neg (by omega), isThere]

theorem length_eq_of_none {first second : List (Entry K V)}
    (same : ∀ x : Nat, first[x]? = none ↔ second[x]? = none) : first.length = second.length := by
  apply Nat.le_antisymm
  · exact List.getElem?_eq_none_iff.mp ((same _).mpr (List.getElem?_eq_none (Nat.le_refl _)))
  · exact List.getElem?_eq_none_iff.mp ((same _).mp (List.getElem?_eq_none (Nat.le_refl _)))

/-- Insertion keeps the number of slots. -/
theorem Inserts.length (inserts : Inserts hash used shift entries moved it e p q) :
    moved.length = entries.length := by
  apply length_eq_of_none
  intro x
  rw [inserts.moved x]
  obtain ⟨b, isB, _⟩ := inserts.free
  have within : ∀ y, y ≤ q → entries[y]? ≠ none := by
    intro y isLow isNone
    have isShort := List.getElem?_eq_none_iff.mp isNone
    have isLong := (List.getElem?_eq_some_iff.mp isB).1
    omega
  by_cases inRun : p ≤ x ∧ x ≤ q
  · rw [if_pos inRun]
    by_cases isFirst : x = p
    · rw [if_pos isFirst]
      exact iff_of_false (by simp) (within x inRun.2)
    · rw [if_neg isFirst]
      exact iff_of_false (within (x - 1) (by omega)) (within x inRun.2)
  · rw [if_neg inRun]

theorem Inserts.holds [DecidableEq K] (hashing : Hashing hash used)
    (inserts : Inserts hash used shift entries moved it e p q) {m : K → Option V}
    (holds : Holds entries m) : Holds moved (Function.update m it.key (some it.value)) := by
  intro k v
  by_cases same : k = it.key
  · subst same
    rw [Function.update_self]
    constructor
    · intro isValue
      refine ⟨p, it, ?_, inserts.filled_it hashing, rfl, Option.some.inj isValue⟩
      rw [inserts.moved, if_pos ⟨Nat.le_refl p, inserts.after⟩, if_pos rfl]
    · rintro ⟨i, a, isA, filledA, isKey, rfl⟩
      rcases inserts.origin isA with ⟨rfl, rfl⟩ | ⟨_, oldA⟩ | ⟨_, _, oldA⟩
      · rfl
      · exact absurd isKey (inserts.absent _ _ oldA filledA)
      · exact absurd isKey (inserts.absent _ _ oldA filledA)
  · rw [Function.update_of_ne same, holds k v]
    constructor
    · rintro ⟨i, a, isA, filledA, isKey, isValue⟩
      obtain ⟨y, isY⟩ := inserts.kept isA filledA
      exact ⟨y, a, isY, filledA, isKey, isValue⟩
    · rintro ⟨i, a, isA, filledA, isKey, isValue⟩
      rcases inserts.origin isA with ⟨rfl, rfl⟩ | ⟨_, oldA⟩ | ⟨_, _, oldA⟩
      · exact absurd isKey.symm same
      · exact ⟨_, a, oldA, filledA, isKey, isValue⟩
      · exact ⟨_, a, oldA, filledA, isKey, isValue⟩

/-! ### Writes -/

/-- A value written at the slot of an entry. -/
theorem modify_spec [DecidableEq K] (slots : Slots hash used shift entries)
    {m : K → Option V} (holds : Holds entries m) {slot : Nat} {a : Entry K V} (isThere : entries[slot]? = some a) (isFilled : a.isEmpty = false)
    (write : V → V) :
    Slots hash used shift
        (entries.modify slot fun entry => { entry with value := write entry.value }) ∧
      Holds (entries.modify slot fun entry => { entry with value := write entry.value })
        (Function.update m a.key (some (write a.value))) := by
  -- hashes and keys stay as they are
  have origin : ∀ {i : Nat} {b : Entry K V},
      (entries.modify slot fun entry => { entry with value := write entry.value })[i]? = some b →
      ∃ c, entries[i]? = some c ∧ b.hash = c.hash ∧ b.key = c.key ∧
        b.value = if i = slot then write c.value else c.value := by
    intro i b isB
    rw [List.getElem?_modify] at isB
    obtain ⟨c, isC, rfl⟩ := Option.map_eq_some_iff.mp isB
    refine ⟨c, isC, ?_⟩
    by_cases here : slot = i
    · rw [if_pos here, if_pos here.symm]
      exact ⟨rfl, rfl, rfl⟩
    · rw [if_neg here, if_neg (Ne.symm here)]
      exact ⟨rfl, rfl, rfl⟩
  have back : ∀ {i : Nat} {c : Entry K V}, entries[i]? = some c →
      ∃ b, (entries.modify slot fun entry => { entry with value := write entry.value })[i]? =
          some b ∧ b.hash = c.hash ∧ b.key = c.key ∧
        b.value = if i = slot then write c.value else c.value := by
    intro i c isC
    rw [List.getElem?_modify, isC]
    refine ⟨_, rfl, ?_⟩
    dsimp only
    by_cases here : slot = i
    · rw [if_pos here, if_pos here.symm]
      exact ⟨rfl, rfl, rfl⟩
    · rw [if_neg here, if_neg (Ne.symm here)]
      exact ⟨rfl, rfl, rfl⟩
  have sameEmpty : ∀ {b c : Entry K V}, b.hash = c.hash → b.isEmpty = c.isEmpty := by
    intro b c sameHash
    unfold Entry.isEmpty
    rw [sameHash]
  constructor
  · refine { sorted := ?_, home := ?_, noGap := ?_, keyed := ?_, placeholder := ?_ }
    · intro i j x y lt isX isY filledX filledY
      obtain ⟨x', isX', hashX, -⟩ := origin isX
      obtain ⟨y', isY', hashY, -⟩ := origin isY
      rw [sameEmpty hashX] at filledX
      rw [sameEmpty hashY] at filledY
      rw [hashX, hashY]
      exact slots.sorted lt isX' isY' filledX filledY
    · intro i x isX filledX
      obtain ⟨x', isX', hashX, -⟩ := origin isX
      rw [sameEmpty hashX] at filledX
      rw [hashX]
      exact slots.home isX' filledX
    · intro i j x isX filledX near below
      obtain ⟨x', isX', hashX, -⟩ := origin isX
      rw [sameEmpty hashX] at filledX
      rw [hashX] at near
      obtain ⟨y, isY, filledY⟩ := slots.noGap isX' filledX near below
      obtain ⟨y', isY', hashY, -⟩ := back isY
      exact ⟨y', isY', by rw [sameEmpty hashY, filledY]⟩
    · intro i x isX filledX
      obtain ⟨x', isX', hashX, keyX, -⟩ := origin isX
      rw [sameEmpty hashX] at filledX
      rw [hashX, keyX]
      exact slots.keyed isX' filledX
    · intro i x isX emptyX
      obtain ⟨x', isX', hashX, keyX, -⟩ := origin isX
      rw [sameEmpty hashX] at emptyX
      rw [keyX]
      exact slots.placeholder isX' emptyX
  · -- another slot holds another key
    have only : ∀ {i : Nat} {c : Entry K V}, entries[i]? = some c → c.isEmpty = false →
        c.key = a.key → i = slot := by
      intro i c isC filledC sameKey
      have sameHash : c.hash = a.hash := by
        rw [(slots.keyed isC filledC).2, (slots.keyed isThere isFilled).2, sameKey]
      rcases Nat.lt_trichotomy i slot with before | same | after
      · have := slots.sorted before isC isThere filledC isFilled
        omega
      · exact same
      · have := slots.sorted after isThere isC isFilled filledC
        omega
    intro k v
    by_cases same : k = a.key
    · subst same
      rw [Function.update_self]
      constructor
      · intro isValue
        obtain ⟨b, isB, hashB, keyB, valueB⟩ := back isThere
        rw [if_pos rfl] at valueB
        exact ⟨slot, b, isB, by rw [sameEmpty hashB, isFilled], keyB,
          valueB.trans (Option.some.inj isValue)⟩
      · rintro ⟨i, b, isB, filledB, keyB, rfl⟩
        obtain ⟨c, isC, hashB, keyC, valueB⟩ := origin isB
        rw [sameEmpty hashB] at filledB
        have here := only isC filledB (keyC.symm.trans keyB)
        subst here
        rw [isThere] at isC
        cases isC
        rw [valueB, if_pos rfl]
    · rw [Function.update_of_ne same, holds k v]
      constructor
      · rintro ⟨i, c, isC, filledC, isKey, isValue⟩
        obtain ⟨b, isB, hashB, keyB, valueB⟩ := back isC
        have elsewhere : i ≠ slot := by
          rintro rfl
          rw [isThere] at isC
          cases isC
          exact same isKey.symm
        rw [if_neg elsewhere] at valueB
        exact ⟨i, b, isB, by rw [sameEmpty hashB, filledC], keyB.trans isKey,
          valueB.trans isValue⟩
      · rintro ⟨i, b, isB, filledB, isKey, isValue⟩
        obtain ⟨c, isC, hashB, keyC, valueB⟩ := origin isB
        rw [sameEmpty hashB] at filledB
        have elsewhere : i ≠ slot := by
          rintro rfl
          rw [isThere] at isC
          cases isC
          exact same (isKey.symm.trans keyC)
        rw [if_neg elsewhere] at valueB
        exact ⟨i, c, isC, filledB, keyC.symm.trans isKey, valueB.symm.trans isValue⟩

/-! ### Deletion -/

/-- The slots after a deletion: the entries from `p + 1` to `r` moved back by one. -/
structure Closed [Inhabited V] (shift : Nat) (entries closed : List (Entry K V)) (p r : Nat) :
    Prop where
  after : p ≤ r
  run : ∀ x, p < x → x ≤ r → ∃ b, entries[x]? = some b ∧ b.isEmpty = false ∧
    homeSlot shift b.hash < x
  last : ∃ b, entries[r + 1]? = some b ∧ (r < homeSlot shift b.hash ∨ b.isEmpty = true)
  closed : ∀ x, closed[x]? =
    if p ≤ x ∧ x ≤ r then (if x = r then some Entry.empty else entries[x + 1]?) else entries[x]?

variable [Inhabited V] {closed : List (Entry K V)} {r : Nat}

theorem empty_isEmpty : (Entry.empty : Entry K V).isEmpty = true := beq_self_eq_true _

/-- The backward shift stops at an entry that is at home or at an empty slot. -/
theorem shiftBack_closed : ∀ (fuel : Nat) {entries out : List (Entry K V)} {p : Nat},
    p < entries.length → HashMap.shiftBack shift fuel entries p = some out →
    ∃ r, Closed shift entries out p r := by
  intro fuel
  induction fuel with
  | zero =>
      intro entries out p _ returned
      cases returned
  | succ fuel ih =>
      intro entries out p inside returned
      rw [HashMap.shiftBack] at returned
      cases isNext : entries[p + 1]? with
      | none =>
          rw [isNext] at returned
          cases returned
      | some next =>
          rw [isNext] at returned
          dsimp only at returned
          by_cases isLast : (decide (p < homeSlot shift next.hash) || next.isEmpty) = true
          · rw [if_pos isLast] at returned
            cases returned
            refine ⟨p, Nat.le_refl p, fun x least most => by omega, ⟨next, isNext, ?_⟩, ?_⟩
            · rcases Bool.or_eq_true_iff.mp isLast with atHome | isEmpty
              · exact .inl (of_decide_eq_true atHome)
              · exact .inr isEmpty
            · intro x
              by_cases here : x = p
              · subst here
                rw [if_pos ⟨Nat.le_refl x, Nat.le_refl x⟩, if_pos rfl, List.getElem?_set_self inside]
              · rw [if_neg (by omega), List.getElem?_set_ne (Ne.symm here)]
          · rw [if_neg isLast] at returned
            have inside' : p + 1 < (entries.set p next).length := by
              rw [List.length_set]
              exact (List.getElem?_eq_some_iff.mp isNext).1
            obtain ⟨r, isClosed⟩ := ih inside' returned
            have same : ∀ x, p + 1 ≤ x → (entries.set p next)[x]? = entries[x]? := by
              intro x later
              rw [List.getElem?_set_ne (by omega)]
            have after := isClosed.after
            refine ⟨r, by omega, ?_, ?_, ?_⟩
            · intro x least most
              rcases Nat.eq_or_lt_of_le (Nat.succ_le_of_lt least) with rfl | later
              · rw [Bool.not_eq_true, Bool.or_eq_false_iff] at isLast
                have notHome := of_decide_eq_false isLast.1
                exact ⟨next, isNext, isLast.2, by omega⟩
              · obtain ⟨b, isB, filledB, nearB⟩ := isClosed.run x (by omega) most
                rw [same x (by omega)] at isB
                exact ⟨b, isB, filledB, nearB⟩
            · obtain ⟨b, isB, stopped⟩ := isClosed.last
              rw [same (r + 1) (by omega)] at isB
              exact ⟨b, isB, stopped⟩
            · intro x
              rw [isClosed.closed x]
              by_cases inRun : p + 1 ≤ x ∧ x ≤ r
              · rw [if_pos inRun, if_pos (show p ≤ x ∧ x ≤ r by omega)]
                by_cases isEnd : x = r
                · rw [if_pos isEnd, if_pos isEnd]
                · rw [if_neg isEnd, if_neg isEnd, same (x + 1) (by omega)]
              · rw [if_neg inRun]
                by_cases here : x = p
                · subst here
                  rw [if_pos (show x ≤ x ∧ x ≤ r by omega), if_neg (show x ≠ r by omega),
                    List.getElem?_set_self inside, isNext]
                · rw [if_neg (by omega), List.getElem?_set_ne (Ne.symm here)]

/-- An entry left after a deletion comes from its slot or the one above, never from the slot
deleted. -/
theorem Closed.origin (isClosed : Closed shift entries closed p r) {x : Nat} {a : Entry K V}
    (isThere : closed[x]? = some a) (isFilled : a.isEmpty = false) :
    ((x < p ∨ r < x) ∧ entries[x]? = some a) ∨ (p ≤ x ∧ x < r ∧ entries[x + 1]? = some a) := by
  have isMoved := isClosed.closed x
  rw [isThere] at isMoved
  by_cases inRun : p ≤ x ∧ x ≤ r
  · rw [if_pos inRun] at isMoved
    by_cases isEnd : x = r
    · rw [if_pos isEnd] at isMoved
      rw [Option.some.inj isMoved, empty_isEmpty] at isFilled
      cases isFilled
    · rw [if_neg isEnd] at isMoved
      exact .inr ⟨inRun.1, by omega, isMoved.symm⟩
  · rw [if_neg inRun] at isMoved
    exact .inl ⟨by omega, isMoved.symm⟩

/-- The slots that held an entry still do, but the last of the run. -/
theorem Closed.filled (isClosed : Closed shift entries closed p r) {x : Nat}
    (wasFilled : Filled entries x ∨ (p ≤ x ∧ x < r)) (notLast : x ≠ r) : Filled closed x := by
  unfold Filled
  rw [isClosed.closed x]
  by_cases inRun : p ≤ x ∧ x ≤ r
  · rw [if_pos inRun, if_neg notLast]
    obtain ⟨b, isB, filledB, _⟩ := isClosed.run (x + 1) (by omega) (by omega)
    exact ⟨b, isB, filledB⟩
  · rw [if_neg inRun]
    rcases wasFilled with filled | inside
    · exact filled
    · exact absurd ⟨inside.1, Nat.le_of_lt inside.2⟩ inRun

/-- Deletion keeps the slots ordered. -/
theorem Closed.slots (slots : Slots hash used shift entries)
    (isClosed : Closed shift entries closed p r) : Slots hash used shift closed := by
  have after := isClosed.after
  refine { sorted := ?_, home := ?_, noGap := ?_, keyed := ?_, placeholder := ?_ }
  · intro i j a b lt isA isB filledA filledB
    rcases isClosed.origin isA filledA with ⟨placeA, oldA⟩ | ⟨lowA, highA, oldA⟩
    · rcases isClosed.origin isB filledB with ⟨placeB, oldB⟩ | ⟨lowB, highB, oldB⟩
      · exact slots.sorted lt oldA oldB filledA filledB
      · exact slots.sorted (by omega) oldA oldB filledA filledB
    · rcases isClosed.origin isB filledB with ⟨placeB, oldB⟩ | ⟨lowB, highB, oldB⟩
      · exact slots.sorted (by omega) oldA oldB filledA filledB
      · exact slots.sorted (by omega) oldA oldB filledA filledB
  · intro i a isA filledA
    rcases isClosed.origin isA filledA with ⟨_, oldA⟩ | ⟨low, high, oldA⟩
    · exact slots.home oldA filledA
    · obtain ⟨b, isB, _, near⟩ := isClosed.run (i + 1) (by omega) (by omega)
      rw [oldA] at isB
      cases isB
      exact Nat.le_of_lt_succ near
  · intro i j a isA filledA near below
    -- the slot left empty lies between no entry and its home
    have notLast : j ≠ r := by
      rintro rfl
      rcases isClosed.origin isA filledA with ⟨placeA, oldA⟩ | ⟨_, high, _⟩
      · obtain ⟨b, isB, stopped⟩ := isClosed.last
        have same : b.isEmpty = false → j < homeSlot shift b.hash := by
          intro filledB
          rcases stopped with atHome | isEmpty
          · exact atHome
          · rw [filledB] at isEmpty
            cases isEmpty
        rcases Nat.eq_or_lt_of_le (Nat.succ_le_of_lt below) with isNext | later
        · rw [← isNext, Nat.succ_eq_add_one, isB] at oldA
          cases oldA
          have := same filledA
          omega
        · obtain ⟨c, isC, filledC⟩ := slots.noGap oldA filledA (Nat.le_succ_of_le near) later
          rw [Nat.succ_eq_add_one, isB] at isC
          cases isC
          have smaller := slots.sorted later isB oldA filledC filledA
          have monotone := homeSlot_mono shift (Nat.le_of_lt smaller)
          have := same filledC
          omega
      · omega
    apply isClosed.filled _ notLast
    by_cases inRun : p ≤ j ∧ j < r
    · exact .inr inRun
    · left
      rcases isClosed.origin isA filledA with ⟨_, oldA⟩ | ⟨_, _, oldA⟩
      · exact slots.noGap oldA filledA near below
      · exact slots.noGap oldA filledA near (by omega)
  · intro i a isA filledA
    rcases isClosed.origin isA filledA with ⟨_, oldA⟩ | ⟨_, _, oldA⟩
    · exact slots.keyed oldA filledA
    · exact slots.keyed oldA filledA
  · intro i a isA emptyA
    have isMoved := isClosed.closed i
    rw [isA] at isMoved
    by_cases inRun : p ≤ i ∧ i ≤ r
    · rw [if_pos inRun] at isMoved
      by_cases isEnd : i = r
      · rw [if_pos isEnd] at isMoved
        rw [Option.some.inj isMoved]
        rfl
      · rw [if_neg isEnd] at isMoved
        exact slots.placeholder isMoved.symm emptyA
    · rw [if_neg inRun] at isMoved
      exact slots.placeholder isMoved.symm emptyA

/-- Deletion keeps the number of slots. -/
theorem Closed.length (isClosed : Closed shift entries closed p r) :
    closed.length = entries.length := by
  apply length_eq_of_none
  intro x
  rw [isClosed.closed x]
  obtain ⟨b, isB, _⟩ := isClosed.last
  have within : ∀ y, y ≤ r + 1 → entries[y]? ≠ none := by
    intro y isLow isNone
    have isShort := List.getElem?_eq_none_iff.mp isNone
    have isLong := (List.getElem?_eq_some_iff.mp isB).1
    omega
  by_cases inRun : p ≤ x ∧ x ≤ r
  · rw [if_pos inRun]
    by_cases isEnd : x = r
    · rw [if_pos isEnd]
      exact iff_of_false (by simp) (within x (by omega))
    · rw [if_neg isEnd]
      exact iff_of_false (within (x + 1) (by omega)) (within x (by omega))
  · rw [if_neg inRun]

theorem Closed.holds [DecidableEq K] (slots : Slots hash used shift entries)
    (isClosed : Closed shift entries closed p r) {a : Entry K V} (isThere : entries[p]? = some a)
    (isFilled : a.isEmpty = false) {m : K → Option V} (holds : Holds entries m) :
    Holds closed (Function.update m a.key none) := by
  have after := isClosed.after
  have only : ∀ {i : Nat} {c : Entry K V}, i ≠ p → entries[i]? = some c → c.isEmpty = false →
      c.key ≠ a.key := by
    intro i c other isC filledC sameKey
    have sameHash : c.hash = a.hash := by
      rw [(slots.keyed isC filledC).2, (slots.keyed isThere isFilled).2, sameKey]
    rcases Nat.lt_or_gt_of_ne other with before | later
    · have := slots.sorted before isC isThere filledC isFilled
      omega
    · have := slots.sorted later isThere isC isFilled filledC
      omega
  intro k v
  by_cases same : k = a.key
  · subst same
    rw [Function.update_self]
    constructor
    · intro isValue
      cases isValue
    · rintro ⟨i, c, isC, filledC, isKey, _⟩
      rcases isClosed.origin isC filledC with ⟨place, oldC⟩ | ⟨_, _, oldC⟩
      · exact absurd isKey (only (by omega) oldC filledC)
      · exact absurd isKey (only (by omega) oldC filledC)
  · rw [Function.update_of_ne same, holds k v]
    constructor
    · rintro ⟨i, c, isC, filledC, isKey, isValue⟩
      have other : i ≠ p := by
        rintro rfl
        rw [isThere] at isC
        cases isC
        exact same isKey.symm
      by_cases inRun : p < i ∧ i ≤ r
      · refine ⟨i - 1, c, ?_, filledC, isKey, isValue⟩
        rw [isClosed.closed, if_pos (show p ≤ i - 1 ∧ i - 1 ≤ r by omega),
          if_neg (show i - 1 ≠ r by omega), Nat.sub_add_cancel (by omega), isC]
      · refine ⟨i, c, ?_, filledC, isKey, isValue⟩
        rw [isClosed.closed, if_neg (by omega), isC]
    · rintro ⟨i, c, isC, filledC, isKey, isValue⟩
      rcases isClosed.origin isC filledC with ⟨_, oldC⟩ | ⟨_, _, oldC⟩
      · exact ⟨_, c, oldC, filledC, isKey, isValue⟩
      · exact ⟨_, c, oldC, filledC, isKey, isValue⟩

end Bunx.Collections
