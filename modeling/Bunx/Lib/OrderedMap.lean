/-
Module: Bunx.Lib.OrderedMap
Purpose: Maps that keep their entries in the order in which the keys were put, so that a key
  has a position.
Trusted boundary: none
Main exports: OrderedMap, OrderedMap.put, OrderedMap.get, OrderedMap.indexOf,
  OrderedMap.modifyAt, OrderedMap.swapRemove, put_append_of_mem, put_append_of_not_mem,
  get_append, perm_set_dropLast, perm_swapRemove, get_swapRemove, get_mapValues
-/
import Mathlib.Data.List.Nodup
import Mathlib.Data.List.Perm.Basic

namespace Bunx.Lib

/-- Entries in the order in which their keys were put. -/
abbrev OrderedMap (K V : Type) : Type := List (K × V)

namespace OrderedMap

variable {K V : Type}

def keys (m : OrderedMap K V) : List K := m.map Prod.fst

def values (m : OrderedMap K V) : List V := m.map Prod.snd

variable [DecidableEq K]

def get : OrderedMap K V → K → Option V
  | [], _ => none
  | (k, v) :: m, key => if k = key then some v else get m key

def indexOf : OrderedMap K V → K → Option Nat
  | [], _ => none
  | (k, _) :: m, key => if k = key then some 0 else (indexOf m key).map (· + 1)

/-- Get or put: the new value may depend on the one that was found. -/
def put : OrderedMap K V → K → (Option V → V) → OrderedMap K V
  | [], key, f => [(key, f none)]
  | (k, v) :: m, key, f => if k = key then (k, f (some v)) :: m else (k, v) :: put m key f

/-- Changes the value at a position. -/
def modifyAt : OrderedMap K V → Nat → (V → V) → OrderedMap K V
  | [], _, _ => []
  | (k, v) :: m, 0, f => (k, f v) :: m
  | e :: m, i + 1, f => e :: modifyAt m i f

/-- Removes the key, and moves the last entry to its position. -/
def swapRemove (m : OrderedMap K V) (key : K) : OrderedMap K V :=
  match m.indexOf key, m.getLast? with
  | some i, some last => (m.set i last).dropLast
  | _, _ => m

variable {m : OrderedMap K V} {key other : K} {f : Option V → V}

theorem get_put : (m.put key f).get other =
    if key = other then some (f (m.get key)) else m.get other := by
  induction m with
  | nil => simp [put, get]
  | cons e m ih =>
      obtain ⟨k, v⟩ := e
      by_cases isKey : k = key
      · subst isKey
        by_cases isOther : k = other
        · simp [put, get, isOther]
        · simp [put, get, isOther]
      · by_cases isOther : k = other
        · subst isOther
          have different : key ≠ k := fun same => isKey same.symm
          simp [put, get, isKey, different]
        · simp [put, get, isKey, isOther, ih]

theorem mem_keys_iff : key ∈ m.keys ↔ ∃ v, m.get key = some v := by
  induction m with
  | nil => simp [keys, get]
  | cons e m ih =>
      obtain ⟨k, v⟩ := e
      by_cases isKey : k = key
      · simp [keys, get, isKey]
      · have different : key ≠ k := fun same => isKey same.symm
        simpa [keys, get, isKey, different] using ih

theorem keys_put : (m.put key f).keys = if key ∈ m.keys then m.keys else m.keys ++ [key] := by
  induction m with
  | nil => simp [put, keys]
  | cons e m ih =>
      obtain ⟨k, v⟩ := e
      by_cases isKey : k = key
      · simp [put, keys, isKey]
      · have different : key ≠ k := fun same => isKey same.symm
        have rest : List.map Prod.fst (put m key f) =
            if key ∈ List.map Prod.fst m then List.map Prod.fst m
            else List.map Prod.fst m ++ [key] := ih
        simp only [put, isKey, if_false, keys, List.map_cons, rest, List.mem_cons, different,
          false_or]
        split
        · rfl
        · rfl

theorem nodup_put (distinct : m.keys.Nodup) : (m.put key f).keys.Nodup := by
  rw [keys_put]
  split
  · exact distinct
  · next fresh => exact distinct.append (List.nodup_singleton key) (by simpa using fresh)

theorem indexOf_put (member : other ∈ m.keys) : (m.put key f).indexOf other = m.indexOf other := by
  induction m with
  | nil => cases member
  | cons e m ih =>
      obtain ⟨k, v⟩ := e
      by_cases isOther : k = other
      · by_cases isKey : k = key
        · simp [put, indexOf, isKey]
        · subst isOther
          simp [put, indexOf, isKey]
      · have inRest : other ∈ keys m := by
          rcases List.mem_cons.mp member with isHead | inRest
          · exact absurd isHead.symm isOther
          · exact inRest
        by_cases isKey : k = key
        · simp [put, indexOf, isKey]
        · simp [put, indexOf, isKey, isOther, ih inRest]

theorem indexOf_isSome (member : key ∈ m.keys) : ∃ i, m.indexOf key = some i := by
  induction m with
  | nil => cases member
  | cons e m ih =>
      obtain ⟨k, v⟩ := e
      by_cases isKey : k = key
      · exact ⟨0, by simp [indexOf, isKey]⟩
      · rcases List.mem_cons.mp member with isHead | inRest
        · exact absurd isHead.symm isKey
        · obtain ⟨i, isIndex⟩ := ih inRest
          exact ⟨i + 1, by simp [indexOf, isKey, isIndex]⟩

/-- A change at the position of a key is a change of its value. -/
theorem get_modifyAt {i : Nat} (isIndex : m.indexOf key = some i) (f : V → V) :
    (m.modifyAt i f).get other =
      if key = other then (m.get other).map f else m.get other := by
  induction m generalizing i with
  | nil => cases isIndex
  | cons e m ih =>
      obtain ⟨k, v⟩ := e
      by_cases isKey : k = key
      · subst isKey
        have isZero : i = 0 := by simpa [indexOf] using isIndex.symm
        subst isZero
        by_cases isOther : k = other
        · simp [modifyAt, get, isOther]
        · simp [modifyAt, get, isOther]
      · simp only [indexOf, isKey, if_false, Option.map_eq_some_iff] at isIndex
        obtain ⟨j, isIndex, rfl⟩ := isIndex
        by_cases isOther : k = other
        · subst isOther
          have different : key ≠ k := fun same => isKey same.symm
          simp [modifyAt, get, different]
        · simp [modifyAt, get, isOther, ih isIndex]

omit [DecidableEq K] in
theorem keys_modifyAt {i : Nat} {f : V → V} : (m.modifyAt i f).keys = m.keys := by
  induction m generalizing i with
  | nil => rfl
  | cons e m ih =>
      cases i with
      | zero => rfl
      | succ i => exact congrArg (e.1 :: ·) ih

omit [DecidableEq K] in
theorem length_modifyAt {i : Nat} {f : V → V} : (m.modifyAt i f).length = m.length := by
  simpa only [keys, List.length_map] using
    congrArg List.length (keys_modifyAt (m := m) (i := i) (f := f))

omit [DecidableEq K] in
/-- A change leaves what is behind it. -/
theorem drop_modifyAt {i : Nat} {f : V → V} : (m.modifyAt i f).drop (i + 1) = m.drop (i + 1) := by
  induction m generalizing i with
  | nil => rfl
  | cons e m ih =>
      cases i with
      | zero => rfl
      | succ i => exact ih

theorem indexOf_eq_of_keys_eq {m' : OrderedMap K V} (same : m'.keys = m.keys) :
    m'.indexOf key = m.indexOf key := by
  induction m generalizing m' with
  | nil =>
      rw [List.map_eq_nil_iff.mp same]
  | cons e m ih =>
      cases m' with
      | nil => cases same
      | cons e' m' =>
          obtain ⟨k, v⟩ := e
          obtain ⟨k', v'⟩ := e'
          obtain ⟨rfl, rest⟩ := List.cons.inj same
          simp only [indexOf, ih rest]

/-- Values that were put are the ones that the function gave or those before. -/
theorem mem_put {P : V → Prop} (before : ∀ e ∈ m, P e.2) (new : P (f none))
    (changed : ∀ v, P v → P (f (some v))) : ∀ e ∈ m.put key f, P e.2 := by
  induction m with
  | nil =>
      intro e member
      rw [List.mem_singleton.mp member]
      exact new
  | cons head m ih =>
      obtain ⟨k, v⟩ := head
      have headHas := before (k, v) (List.mem_cons_self ..)
      intro e member
      unfold put at member
      split at member
      · rcases List.mem_cons.mp member with rfl | inRest
        · exact changed v headHas
        · exact before e (List.mem_cons_of_mem _ inRest)
      · rcases List.mem_cons.mp member with rfl | inRest
        · exact headHas
        · exact ih
            (fun e member => before e (List.mem_cons_of_mem _ member)) e inRest

/-- What is left after a removal was there before. -/
theorem mem_of_mem_swapRemove {e : K × V} (member : e ∈ m.swapRemove key) : e ∈ m := by
  unfold swapRemove at member
  split at member
  · next i last _ isLast =>
    rcases List.mem_or_eq_of_mem_set ((List.dropLast_subset _) member) with isMember | rfl
    · exact isMember
    · exact List.mem_of_getLast? isLast
  · exact member

theorem mem_of_get {v : V} (found : m.get key = some v) : (key, v) ∈ m := by
  induction m with
  | nil => cases found
  | cons e m ih =>
      obtain ⟨k, w⟩ := e
      by_cases isKey : k = key
      · subst isKey
        simp only [get, if_true, Option.some.injEq] at found
        subst found
        exact List.mem_cons_self ..
      · simp only [get, isKey, if_false] at found
        exact List.mem_cons_of_mem _ (ih found)

/-! ### Entries behind others -/

variable {more : OrderedMap K V}

theorem put_append_of_mem (member : key ∈ m.keys) :
    OrderedMap.put (m ++ more) key f = m.put key f ++ more := by
  induction m with
  | nil => cases member
  | cons e m ih =>
      obtain ⟨k, v⟩ := e
      by_cases isKey : k = key
      · simp [put, isKey]
      · rcases List.mem_cons.mp member with isHead | inRest
        · exact absurd isHead.symm isKey
        · simp [put, isKey, ih inRest]

theorem put_append_of_not_mem (fresh : key ∉ m.keys) :
    OrderedMap.put (m ++ more) key f = m ++ more.put key f := by
  induction m with
  | nil => rfl
  | cons e m ih =>
      obtain ⟨k, v⟩ := e
      obtain ⟨different, notRest⟩ := not_or.mp (List.mem_cons.not.mp fresh)
      have isOther : k ≠ key := fun same => different same.symm
      simp [put, isOther, ih notRest]

theorem indexOf_append_of_mem (more : OrderedMap K V) (member : key ∈ m.keys) :
    ∃ i, OrderedMap.indexOf (m ++ more) key = some i ∧ i < m.length := by
  induction m with
  | nil => cases member
  | cons e m ih =>
      obtain ⟨k, v⟩ := e
      by_cases isKey : k = key
      · exact ⟨0, by simp [indexOf, isKey], Nat.succ_pos _⟩
      · rcases List.mem_cons.mp member with isHead | inRest
        · exact absurd isHead.symm isKey
        · obtain ⟨i, isIndex, inside⟩ := ih inRest
          exact ⟨i + 1, by simp [indexOf, isKey, isIndex], Nat.succ_lt_succ inside⟩

theorem indexOf_append_of_not_mem {i : Nat} (fresh : key ∉ m.keys)
    (isIndex : OrderedMap.indexOf (m ++ more) key = some i) : m.length ≤ i := by
  induction m generalizing i with
  | nil => exact Nat.zero_le _
  | cons e m ih =>
      obtain ⟨k, v⟩ := e
      obtain ⟨different, notRest⟩ := not_or.mp (List.mem_cons.not.mp fresh)
      have isOther : k ≠ key := fun same => different same.symm
      simp only [List.cons_append, indexOf, isOther, if_false, Option.map_eq_some_iff] at isIndex
      obtain ⟨j, isIndex, rfl⟩ := isIndex
      exact Nat.succ_le_succ (ih notRest isIndex)

theorem get_append : OrderedMap.get (m ++ more) key = (m.get key).or (more.get key) := by
  induction m with
  | nil => rfl
  | cons e m ih =>
      obtain ⟨k, v⟩ := e
      by_cases isKey : k = key
      · simp [get, isKey]
      · simpa [get, isKey] using ih

theorem get_eq_none_iff : m.get key = none ↔ key ∉ m.keys := by
  rw [mem_keys_iff, Option.eq_none_iff_forall_ne_some]
  exact not_exists.symm

/-- Where no key occurs twice, every entry is found. -/
theorem get_of_mem {v : V} (distinct : m.keys.Nodup) (member : (key, v) ∈ m) :
    m.get key = some v := by
  induction m with
  | nil => cases member
  | cons e m ih =>
      obtain ⟨k, w⟩ := e
      obtain ⟨notRest, distinct⟩ := List.nodup_cons.mp distinct
      rcases List.mem_cons.mp member with isHead | inRest
      · obtain ⟨rfl, rfl⟩ := Prod.mk.inj isHead
        simp [get]
      · have different : k ≠ key := by
          rintro rfl
          exact notRest (List.mem_map.mpr ⟨(k, v), inRest, rfl⟩)
        simpa [get, different] using ih distinct inRest

/-! ### Removal -/

theorem getElem?_indexOf {i : Nat} {v : V} (isIndex : m.indexOf key = some i)
    (found : m.get key = some v) : m[i]? = some (key, v) := by
  induction m generalizing i with
  | nil => cases found
  | cons e m ih =>
      obtain ⟨k, w⟩ := e
      by_cases isKey : k = key
      · subst isKey
        simp only [indexOf, if_true, Option.some.injEq] at isIndex
        simp only [get, if_true, Option.some.injEq] at found
        subst isIndex found
        rfl
      · simp only [indexOf, isKey, if_false, Option.map_eq_some_iff] at isIndex
        simp only [get, isKey, if_false] at found
        obtain ⟨j, isIndex, rfl⟩ := isIndex
        simpa using ih isIndex found

end OrderedMap

/-- Where the last item takes the place of another, that one is gone. -/
theorem perm_set_dropLast {α : Type} {items : List α} {i : Nat} {item last : α}
    (here : items[i]? = some item) (isLast : items.getLast? = some last) :
    items.Perm (item :: (items.set i last).dropLast) := by
  obtain ⟨front, rfl⟩ := List.getLast?_eq_some_iff.mp isLast
  obtain ⟨inside, isItem⟩ := List.getElem?_eq_some_iff.mp here
  rw [List.length_append, List.length_singleton] at inside
  by_cases inFront : i < front.length
  · rw [List.set_append_left i last inFront, List.dropLast_concat]
    rw [List.getElem_append_left inFront] at isItem
    have taken := List.getElem_cons_eraseIdx_perm inFront
    have moved := List.set_perm_cons_eraseIdx inFront last
    rw [isItem] at taken
    refine (List.perm_append_singleton last front).trans ?_
    refine (taken.symm.cons last).trans ((List.Perm.swap item last _).trans ?_)
    exact moved.symm.cons item
  · have isEnd : i = front.length := by omega
    subst isEnd
    rw [List.getElem_concat_length rfl] at isItem
    subst isItem
    rw [List.set_append_right _ _ (Nat.le_refl _), Nat.sub_self, List.set_cons_zero,
      List.dropLast_concat]
    exact List.perm_append_singleton last front

namespace OrderedMap

variable {K V : Type} [DecidableEq K] {m : OrderedMap K V} {key other : K}

/-- A removal takes the entry of the key away. -/
theorem perm_swapRemove {v : V} (found : m.get key = some v) :
    m.Perm ((key, v) :: m.swapRemove key) := by
  obtain ⟨i, isIndex⟩ := indexOf_isSome (mem_keys_iff.mpr ⟨v, found⟩)
  have here := getElem?_indexOf isIndex found
  have nonempty : m ≠ [] := by
    rintro rfl
    cases found
  obtain ⟨last, isLast⟩ := Option.ne_none_iff_exists'.mp
    (fun none => nonempty (List.getLast?_eq_none_iff.mp none))
  rw [swapRemove, isIndex, isLast]
  exact perm_set_dropLast here isLast

theorem nodup_swapRemove {v : V} (found : m.get key = some v) (distinct : m.keys.Nodup) :
    (m.swapRemove key).keys.Nodup ∧ key ∉ (m.swapRemove key).keys := by
  have perm := (perm_swapRemove found).map Prod.fst
  have both := perm.nodup_iff.mp distinct
  exact ⟨(List.nodup_cons.mp both).2, (List.nodup_cons.mp both).1⟩

theorem get_swapRemove {v : V} (found : m.get key = some v) (distinct : m.keys.Nodup) :
    (m.swapRemove key).get other = if key = other then none else m.get other := by
  obtain ⟨distinctRest, gone⟩ := nodup_swapRemove found distinct
  by_cases isKey : key = other
  · subst isKey
    rw [if_pos rfl]
    exact get_eq_none_iff.mpr gone
  · rw [if_neg isKey]
    cases before : m.get other with
    | none =>
        refine get_eq_none_iff.mpr fun member => get_eq_none_iff.mp before ?_
        obtain ⟨w, isEntry⟩ := mem_keys_iff.mp member
        exact List.mem_map.mpr ⟨_, mem_of_mem_swapRemove (mem_of_get isEntry), rfl⟩
    | some w =>
        refine get_of_mem distinctRest ?_
        have member := (perm_swapRemove found).mem_iff.mp (mem_of_get before)
        rcases List.mem_cons.mp member with isHead | inRest
        · exact absurd (Prod.mk.inj isHead).1.symm isKey
        · exact inRest

/-- A value that changes leaves the count of the others. -/
theorem countP_put {p : V → Bool} {before after : V} (found : m.get key = some before) :
    (m.put key fun _ => after).countP (fun e => p e.2) + (p before).toNat =
      m.countP (fun e => p e.2) + (p after).toNat := by
  induction m with
  | nil => cases found
  | cons e m ih =>
      obtain ⟨k, v⟩ := e
      by_cases isKey : k = key
      · subst isKey
        simp only [get, if_true, Option.some.injEq] at found
        subst found
        cases isBefore : p v with
        | true =>
            cases isAfter : p after with
            | true => simp [put, isBefore, isAfter]
            | false => simp [put, isBefore, isAfter]
        | false =>
            cases isAfter : p after with
            | true => simp [put, isBefore, isAfter]
            | false => simp [put, isBefore, isAfter]
      · simp only [get, isKey, if_false] at found
        have rest := ih found
        simp only [put, isKey, if_false, List.countP_cons]
        omega

/-- What is done to every value is done to the one of a key. -/
theorem get_mapValues {W : Type} (f : V → W) :
    OrderedMap.get (m.map fun e => (e.1, f e.2)) key = (m.get key).map f := by
  induction m with
  | nil => rfl
  | cons e m ih =>
      obtain ⟨k, v⟩ := e
      by_cases isKey : k = key
      · simp [get, isKey]
      · simpa [get, isKey] using ih

/-- A value that looks as the one before changes no view of the map. -/
theorem mapValues_put {W : Type} {f : V → W} {v : V} (same : (m.get key).map f = some (f v)) :
    (m.put key fun _ => v).map (fun e => (e.1, f e.2)) = m.map fun e => (e.1, f e.2) := by
  induction m with
  | nil => cases same
  | cons e m ih =>
      obtain ⟨k, before⟩ := e
      by_cases isKey : k = key
      · subst isKey
        simp only [get, if_true, Option.map_some, Option.some.injEq] at same
        simp [put, same]
      · simp only [get, isKey, if_false] at same
        simp only [put, isKey, if_false]
        exact congrArg (_ :: ·) (ih same)

omit [DecidableEq K] in
theorem keys_mapValues {W : Type} (f : V → W) :
    OrderedMap.keys (m.map fun e => (e.1, f e.2)) = m.keys := by
  rw [keys, keys, List.map_map]
  rfl

end OrderedMap

end Bunx.Lib
