/-
Module: Bunx.Collections.HashMapSlots
Purpose: What holds of the slots of the hash-ordered map: sorted by hash, no entry before its
  home and no empty slot between an entry and its home; and what a look-up stops at.
Trusted boundary: none
Main exports:
  Ordered, Slots, Hashing, Holds, Stops, stops_found, Slots.least,
  getOrPutLoop_stops, getOrPutLoop_shifts
-/
import Mathlib.Data.Set.Function
import Mathlib.Data.Nat.Init
import Bunx.Collections.StaticHashMap

namespace Bunx.Collections

variable {K V : Type}

/-- The slot holds an entry. -/
def Filled (entries : List (Entry K V)) (i : Nat) : Prop :=
  ∃ entry, entries[i]? = some entry ∧ entry.isEmpty = false

/-- The order of the slots. -/
structure Ordered (shift : Nat) (entries : List (Entry K V)) : Prop where
  /-- The entries are sorted by hash. -/
  sorted : ∀ {i j : Nat} {a b : Entry K V}, i < j → entries[i]? = some a → entries[j]? = some b →
    a.isEmpty = false → b.isEmpty = false → a.hash < b.hash
  /-- No entry lies before its home. -/
  home : ∀ {i : Nat} {a : Entry K V}, entries[i]? = some a → a.isEmpty = false →
    homeSlot shift a.hash ≤ i
  /-- No empty slot lies between an entry and its home. -/
  noGap : ∀ {i j : Nat} {a : Entry K V}, entries[i]? = some a → a.isEmpty = false →
    homeSlot shift a.hash ≤ j → j < i → Filled entries j

/-- The hash function on the keys used. -/
structure Hashing (hash : K → Nat) (used : Set K) : Prop where
  injective : Set.InjOn hash used
  small : ∀ key ∈ used, hash key < emptyHash

/-- Ordered slots whose entries are hashed keys and whose empty slots hold the placeholder. -/
structure Slots [Inhabited K] (hash : K → Nat) (used : Set K) (shift : Nat)
    (entries : List (Entry K V)) : Prop extends Ordered shift entries where
  keyed : ∀ {i : Nat} {a : Entry K V}, entries[i]? = some a → a.isEmpty = false →
    a.key ∈ used ∧ a.hash = hash a.key
  placeholder : ∀ {i : Nat} {a : Entry K V}, entries[i]? = some a → a.isEmpty = true →
    a.key = default

/-- The slots hold the finite map. -/
def Holds (entries : List (Entry K V)) (m : K → Option V) : Prop :=
  ∀ key value, m key = some value ↔
    ∃ (i : Nat) (a : Entry K V),
      entries[i]? = some a ∧ a.isEmpty = false ∧ a.key = key ∧ a.value = value

/-- No entry has the key. -/
def Absent (entries : List (Entry K V)) (key : K) : Prop :=
  ∀ (i : Nat) (a : Entry K V), entries[i]? = some a → a.isEmpty = false → a.key ≠ key

/-- The look-up of a hash from a slot on stops at an entry: all before it are smaller. -/
structure Stops (entries : List (Entry K V)) (hash from_ p : Nat) (entry : Entry K V) : Prop where
  after : from_ ≤ p
  there : entries[p]? = some entry
  large : hash ≤ entry.hash
  before : ∀ x, from_ ≤ x → x < p → ∃ b, entries[x]? = some b ∧ b.hash < hash

theorem homeSlot_mono (shift : Nat) {a b : Nat} (le : a ≤ b) :
    homeSlot shift a ≤ homeSlot shift b := by
  unfold homeSlot
  rw [Nat.shiftRight_eq_div_pow, Nat.shiftRight_eq_div_pow]
  exact Nat.div_le_div_right le

/-- A later home is that of a larger hash. -/
theorem lt_of_homeSlot_lt {shift a b : Nat} (lt : homeSlot shift a < homeSlot shift b) :
    a < b := by
  by_contra notLt
  have := homeSlot_mono shift (Nat.le_of_not_lt notLt)
  omega

theorem isEmpty_false_of_lt {entry : Entry K V} (small : entry.hash < emptyHash) :
    entry.isEmpty = false := by
  unfold Entry.isEmpty
  exact beq_false_of_ne (Nat.ne_of_lt small)

theorem hash_of_isEmpty {entry : Entry K V} (isEmpty : entry.isEmpty = true) :
    entry.hash = emptyHash := by
  unfold Entry.isEmpty at isEmpty
  exact beq_iff_eq.mp isEmpty

section LookUp

variable [Inhabited K] {hash : K → Nat} {used : Set K} {shift : Nat}
  {entries : List (Entry K V)} {key : K} {p : Nat} {e : Entry K V}

/-- The slots passed by a look-up hold entries. -/
theorem Stops.filled (hashing : Hashing hash used) (isUsed : key ∈ used)
    (stops : Stops entries (hash key) (homeSlot shift (hash key)) p e) {x : Nat}
    (least : homeSlot shift (hash key) ≤ x) (below : x < p) : Filled entries x := by
  obtain ⟨b, isThere, smaller⟩ := stops.before x least below
  exact ⟨b, isThere, isEmpty_false_of_lt (Nat.lt_trans smaller (hashing.small key isUsed))⟩

/-- An entry of the key is where the look-up stops. -/
theorem stops_found (slots : Slots hash used shift entries)
    (stops : Stops entries (hash key) (homeSlot shift (hash key)) p e) {q : Nat} {a : Entry K V}
    (isThere : entries[q]? = some a) (isFilled : a.isEmpty = false) (isKey : a.key = key) :
    q = p ∧ a = e := by
  have hashed : a.hash = hash key := by rw [(slots.keyed isThere isFilled).2, isKey]
  have least := slots.home isThere isFilled
  rw [hashed] at least
  have same : q = p := by
    rcases Nat.lt_trichotomy q p with before | same | after
    · obtain ⟨b, isThere', smaller⟩ := stops.before q least before
      rw [isThere] at isThere'
      cases isThere'
      omega
    · exact same
    · obtain ⟨b, isThere', isFilled'⟩ := slots.noGap isThere isFilled
        (by rw [hashed]; exact stops.after) after
      have smaller := slots.sorted after isThere' isThere isFilled' isFilled
      have large := stops.large
      rw [stops.there] at isThere'
      cases isThere'
      omega
  subst same
  have sameEntry := stops.there
  rw [isThere] at sameEntry
  exact ⟨rfl, Option.some.inj sameEntry⟩

/-- The entries from the stop on have no smaller hash. -/
theorem Slots.large (slots : Slots hash used shift entries)
    (stops : Stops entries (hash key) (homeSlot shift (hash key)) p e) {j : Nat} {a : Entry K V}
    (after : p ≤ j) (isThere : entries[j]? = some a) (isFilled : a.isEmpty = false) :
    hash key ≤ a.hash := by
  rcases Nat.eq_or_lt_of_le after with rfl | proper
  · have same := stops.there
    rw [isThere] at same
    rw [Option.some.inj same]
    exact stops.large
  · cases isEmpty : e.isEmpty with
    | false =>
        have := slots.sorted proper stops.there isThere isEmpty isFilled
        have large := stops.large
        omega
    | true =>
        by_contra smaller
        have near : homeSlot shift a.hash ≤ p :=
          Nat.le_trans (homeSlot_mono shift (Nat.le_of_not_le smaller)) stops.after
        obtain ⟨b, isThere', isFilled'⟩ := slots.noGap isThere isFilled near proper
        rw [stops.there] at isThere'
        cases isThere'
        rw [isEmpty] at isFilled'
        cases isFilled'

/-- The entries before the stop have a smaller hash. -/
theorem Slots.least (slots : Slots hash used shift entries)
    (stops : Stops entries (hash key) (homeSlot shift (hash key)) p e) {j : Nat} {a : Entry K V}
    (before : j < p) (isThere : entries[j]? = some a) (isFilled : a.isEmpty = false) :
    a.hash < hash key := by
  by_cases far : homeSlot shift (hash key) ≤ j
  · obtain ⟨b, isThere', smaller⟩ := stops.before j far before
    rw [isThere] at isThere'
    cases isThere'
    exact smaller
  · have near := slots.home isThere isFilled
    exact lt_of_homeSlot_lt (Nat.lt_of_le_of_lt near (Nat.lt_of_not_le far))

/-- The entries from the stop on have a larger hash when the key has none. -/
theorem Slots.larger (hashing : Hashing hash used) (isUsed : key ∈ used)
    (slots : Slots hash used shift entries)
    (stops : Stops entries (hash key) (homeSlot shift (hash key)) p e)
    (absent : Absent entries key) {j : Nat}
    {a : Entry K V} (after : p ≤ j) (isThere : entries[j]? = some a)
    (isFilled : a.isEmpty = false) : hash key < a.hash := by
  apply Nat.lt_of_le_of_ne (slots.large stops after isThere isFilled)
  intro same
  obtain ⟨isUsed', isHash⟩ := slots.keyed isThere isFilled
  exact absent j a isThere isFilled (hashing.injective isUsed' isUsed (by rw [← isHash, same]))

end LookUp

/-! ### What the loops compute -/

theorem find?_stops {entries : List (Entry K V)} {h from_ : Nat} {e : Entry K V}
    (found : (entries.drop from_).find? (fun entry => entry.hash ≥ h) = some e) :
    ∃ p, Stops entries h from_ p e := by
  obtain ⟨isLarge, before, after, isSplit, smaller⟩ := List.find?_eq_some_iff_append.mp found
  have get : ∀ x, entries[from_ + x]? = (before ++ e :: after)[x]? := by
    intro x
    rw [← isSplit, List.getElem?_drop]
  refine ⟨from_ + before.length, Nat.le_add_right _ _, ?_, of_decide_eq_true isLarge, ?_⟩
  · rw [get, List.getElem?_append_right (Nat.le_refl _), Nat.sub_self]
    rfl
  · intro x least below
    obtain ⟨y, rfl⟩ := Nat.exists_eq_add_of_le least
    have inside : y < before.length := by omega
    refine ⟨before[y], ?_, ?_⟩
    · rw [get, List.getElem?_append_left inside, List.getElem?_eq_getElem inside]
    · have := smaller _ (List.getElem_mem inside)
      simpa using this

theorem findIdx?_stops {entries : List (Entry K V)} {h from_ j : Nat}
    (found : (entries.drop from_).findIdx? (fun entry => entry.hash ≥ h) = some j) :
    ∃ e, Stops entries h from_ (from_ + j) e := by
  obtain ⟨inside, isLarge, smaller⟩ := List.findIdx?_eq_some_iff_getElem.mp found
  have get : ∀ x (isIndex : x < (entries.drop from_).length),
      entries[from_ + x]? = some ((entries.drop from_).get ⟨x, isIndex⟩) := by
    intro x isIndex
    rw [← List.getElem?_drop, List.getElem?_eq_getElem isIndex]
    rfl
  refine ⟨(entries.drop from_).get ⟨j, inside⟩, Nat.le_add_right _ _, get j inside,
    of_decide_eq_true isLarge, ?_⟩
  intro x least below
  obtain ⟨y, rfl⟩ := Nat.exists_eq_add_of_le least
  have isBefore : y < j := by omega
  refine ⟨_, get y (Nat.lt_trans isBefore inside), ?_⟩
  have := smaller y isBefore
  simpa using this

variable [DecidableEq K] {key : K}

/-- The entry goes to a slot and those from there on move up by one, into the empty slot. -/
def Moved (entries moved : List (Entry K V)) (it : Entry K V) (p q : Nat) : Prop :=
  ∀ x, moved[x]? =
    if p ≤ x ∧ x ≤ q then (if x = p then some it else entries[x - 1]?) else entries[x]?

/-- After the first displacement, everything moves up until an empty slot. -/
theorem getOrPutLoop_shifts : ∀ (fuel : Nat) {entries : List (Entry K V)} {it : Entry K V}
    {i slot : Nat} {out : List (Entry K V) × Bool × Nat},
    HashMap.getOrPutLoop key fuel entries it i (some slot) = some out →
    (∀ (x : Nat) (a : Entry K V), i ≤ x → entries[x]? = some a → it.hash ≤ a.hash) →
    (∀ (x y : Nat) (a b : Entry K V), i ≤ x → x < y → entries[x]? = some a → entries[y]? = some b →
      a.isEmpty = false → a.hash ≤ b.hash) →
    (∀ (x : Nat) (a : Entry K V), i ≤ x → entries[x]? = some a → a.key ≠ key) →
    ∃ q e, i ≤ q ∧ entries[q]? = some e ∧ e.isEmpty = true ∧
      (∀ x, i ≤ x → x < q → Filled entries x) ∧ out.2 = (false, slot) ∧
      Moved entries out.1 it i q := by
  intro fuel
  induction fuel with
  | zero =>
      intro entries it i slot out returned
      cases returned
  | succ fuel ih =>
      intro entries it i slot out returned large ascending others
      rw [HashMap.getOrPutLoop] at returned
      cases isThere : entries[i]? with
      | none =>
          rw [isThere] at returned
          cases returned
      | some entry =>
          rw [isThere] at returned
          dsimp only at returned
          rw [if_pos (large i entry (Nat.le_refl i) isThere),
            if_neg (others i entry (Nat.le_refl i) isThere)] at returned
          have inside : i < entries.length := (List.getElem?_eq_some_iff.mp isThere).1
          cases isEmpty : entry.isEmpty with
          | true =>
              rw [isEmpty, if_pos rfl] at returned
              cases returned
              refine ⟨i, entry, Nat.le_refl i, isThere, isEmpty, ?_, rfl, ?_⟩
              · intro x least below
                omega
              · intro x
                rw [List.getElem?_set]
                by_cases here : x = i
                · subst here
                  simp [inside]
                · rw [if_neg (Ne.symm here), if_neg (by omega)]
          | false =>
              rw [isEmpty, if_neg Bool.false_ne_true] at returned
              have same : ∀ x, i + 1 ≤ x → (entries.set i it)[x]? = entries[x]? := by
                intro x later
                rw [List.getElem?_set_ne (by omega)]
              obtain ⟨q, e, atMost, isQ, isEmptyQ, run, isOut, moved⟩ := ih returned
                (by
                  intro x a later isA
                  rw [same x later] at isA
                  exact ascending i x entry a (Nat.le_refl i) later isThere isA isEmpty)
                (by
                  intro x y a b later lt isA isB
                  rw [same x later] at isA
                  rw [same y (by omega)] at isB
                  exact ascending x y a b (by omega) lt isA isB)
                (by
                  intro x a later isA
                  rw [same x later] at isA
                  exact others x a (by omega) isA)
              rw [same q atMost] at isQ
              refine ⟨q, e, by omega, isQ, isEmptyQ, ?_, isOut, ?_⟩
              · intro x least below
                rcases Nat.eq_or_lt_of_le least with rfl | later
                · exact ⟨entry, isThere, isEmpty⟩
                · obtain ⟨b, isB, isFilled⟩ := run x later below
                  rw [same x later] at isB
                  exact ⟨b, isB, isFilled⟩
              · intro x
                rw [moved x]
                by_cases inRun : i + 1 ≤ x ∧ x ≤ q
                · rw [if_pos inRun, if_pos (show i ≤ x ∧ x ≤ q by omega), if_neg (show x ≠ i by omega)]
                  by_cases next : x = i + 1
                  · rw [if_pos next, next, Nat.add_sub_cancel, isThere]
                  · rw [if_neg next, same (x - 1) (by omega)]
                · rw [if_neg inRun]
                  by_cases here : x = i
                  · subst here
                    rw [if_pos (by omega), if_pos rfl, List.getElem?_set_self inside]
                  · rw [if_neg (by omega), List.getElem?_set_ne (by omega)]

/-- The loop first looks the key up. -/
theorem getOrPutLoop_stops : ∀ (fuel : Nat) {entries : List (Entry K V)} {it : Entry K V}
    {i : Nat} {out : List (Entry K V) × Bool × Nat},
    HashMap.getOrPutLoop key fuel entries it i none = some out →
    ∃ p e, Stops entries it.hash i p e ∧
      ((e.key = key ∧ out = (entries, true, p)) ∨
        (e.key ≠ key ∧ e.isEmpty = true ∧ out = (entries.set p it, false, p)) ∨
        (e.key ≠ key ∧ e.isEmpty = false ∧ ∃ fuel',
          HashMap.getOrPutLoop key fuel' (entries.set p it) e (p + 1) (some p) = some out)) := by
  intro fuel
  induction fuel with
  | zero =>
      intro entries it i out returned
      cases returned
  | succ fuel ih =>
      intro entries it i out returned
      rw [HashMap.getOrPutLoop] at returned
      cases isThere : entries[i]? with
      | none =>
          rw [isThere] at returned
          cases returned
      | some entry =>
          rw [isThere] at returned
          dsimp only at returned
          by_cases isLarge : entry.hash ≥ it.hash
          · rw [if_pos isLarge] at returned
            refine ⟨i, entry, ⟨Nat.le_refl i, isThere, isLarge, fun x least below => by omega⟩, ?_⟩
            by_cases isKey : entry.key = key
            · rw [if_pos isKey] at returned
              exact .inl ⟨isKey, (Option.some.inj returned).symm⟩
            · rw [if_neg isKey] at returned
              right
              cases isEmpty : entry.isEmpty with
              | true =>
                  rw [isEmpty, if_pos rfl] at returned
                  exact .inl ⟨isKey, rfl, (Option.some.inj returned).symm⟩
              | false =>
                  rw [isEmpty, if_neg Bool.false_ne_true] at returned
                  exact .inr ⟨isKey, rfl, fuel, returned⟩
          · rw [if_neg isLarge] at returned
            obtain ⟨p, e, stops, outcome⟩ := ih returned
            refine ⟨p, e, ⟨?_, stops.there, stops.large, ?_⟩, outcome⟩
            · have := stops.after
              omega
            · intro x least below
              rcases Nat.eq_or_lt_of_le least with rfl | later
              · exact ⟨entry, isThere, Nat.lt_of_not_le isLarge⟩
              · exact stops.before x later below

end Bunx.Collections
