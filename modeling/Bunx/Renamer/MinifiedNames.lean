/-
Module: Bunx.Renamer.MinifiedNames
Purpose: The names that are given to slots are different and legal, unless a capital name that
  is reserved is given to a component.
Trusted boundary: none
Main exports: LegalNames, CapitalsAreFree, assignNamesByFrequency_legal
-/
import Bunx.Renamer.MinifyRenamer
import Mathlib.Data.Finset.Card
import Mathlib.Order.Bounds.Basic

namespace Bunx.Renamer

/-! ### Legal names -/

/-- What is looked up before a name is given to a slot. -/
def taken (reserved : List Name) : SlotNamespace → Name → Bool
  | .default => reserved.contains
  | .label => keyword
  | _ => fun _ => false

/-- The name as it is stored. -/
def written : SlotNamespace → Name → Name
  | .privateName => fun name => text "#" ++ name
  | _ => id

structure LegalNames (reserved : List Name) (slots : SlotNamespace → List SymbolSlot) : Prop where
  distinct : ∀ ns ∈ slotNamespaces, ((slots ns).map SymbolSlot.name).Nodup
  notReserved : ∀ slot ∈ slots .default, slot.name ∉ reserved
  capital : ∀ ns ∈ slotNamespaces, ∀ slot ∈ slots ns, slot.needsCapitalForJsx = true →
    startsLower slot.name = false
  notKeyword : ∀ slot ∈ slots .label, keyword slot.name = false

/-- The slots of a namespace, with their flags in the order of their counts, take the names from
`next` on that are not taken. A flagged slot goes on to the first name that is not in lower case:
that name must not be taken either. Only the default namespace looks at the flag. -/
inductive CapitalsAreFree (names : Nat → Name) (reserved : List Name) (ns : SlotNamespace) :
    Nat → List Bool → Prop
  | nil (next : Nat) : CapitalsAreFree names reserved ns next []
  | plain {next i : Nat} {flags : List Bool}
      (first : IsLeast {i | next ≤ i ∧ taken reserved ns (names i) = false} i)
      (rest : CapitalsAreFree names reserved ns (i + 1) flags) :
      CapitalsAreFree names reserved ns next (false :: flags)
  | capital {next i j : Nat} {flags : List Bool} (isDefault : ns = .default)
      (first : IsLeast {i | next ≤ i ∧ taken reserved ns (names i) = false} i)
      (firstCapital : IsLeast {j | i ≤ j ∧ startsLower (names j) = false} j)
      (free : taken reserved ns (names j) = false)
      (rest : CapitalsAreFree names reserved ns (j + 1) flags) :
      CapitalsAreFree names reserved ns next (true :: flags)
  | unread {next i : Nat} {flags : List Bool} (notDefault : ns ≠ .default)
      (first : IsLeast {i | next ≤ i ∧ taken reserved ns (names i) = false} i)
      (upper : startsLower (written ns (names i)) = false)
      (rest : CapitalsAreFree names reserved ns (i + 1) flags) :
      CapitalsAreFree names reserved ns next (true :: flags)

/-- The flags of slots, the most used ones first. -/
def flagsByFrequency (slots : List SymbolSlot) : List Bool :=
  (sortedSlots slots).map fun data => slots[data.slot]?.any SymbolSlot.needsCapitalForJsx

/-! ### The loops -/

section Loops

variable {minifier : NameMinifier} {names : Nat → Name} {fuel : Nat}

theorem renumberWhile_least (isName : ∀ i, minifier.numberToMinifiedName i = some (names i))
    {bad : Name → Bool} {i j : Nat} (least : IsLeast {j | i ≤ j ∧ bad (names j) = false} j)
    (enough : j - i < fuel) :
    renumberWhile minifier bad fuel (names i, i + 1) = some (names j, j + 1) := by
  induction fuel generalizing i with
  | zero => cases enough
  | succ fuel ih =>
      obtain ⟨⟨from_i, isGood⟩, isFirst⟩ := least
      unfold renumberWhile
      cases isBad : bad (names i) with
      | false =>
          have isSame : j = i := Nat.le_antisymm (isFirst ⟨Nat.le_refl i, isBad⟩) from_i
          rw [isSame]
          rfl
      | true =>
          have later : i ≠ j := by
            rintro rfl
            rw [isGood] at isBad
            cases isBad
          rw [if_pos rfl, isName]
          apply ih
          · exact ⟨⟨by omega, isGood⟩, fun k ⟨after, good⟩ => isFirst ⟨by omega, good⟩⟩
          · omega

/-- The first good number is not after any good one. -/
theorem exists_least (good : Nat → Prop) {i k : Nat} (from_i : i ≤ k) (isGood : good k) :
    ∃ j, IsLeast {j | i ≤ j ∧ good j} j ∧ j ≤ k := by
  classical
  have found : ∃ j, i ≤ j ∧ good j := ⟨k, from_i, isGood⟩
  refine ⟨Nat.find found, ⟨Nat.find_spec found, ?_⟩, Nat.find_min' found ⟨from_i, isGood⟩⟩
  intro j isGoodToo
  exact Nat.find_min' found isGoodToo

/-- More names than there are in a list are not all in it. -/
theorem exists_free (injective : Function.Injective names) (list : List Name) (i : Nat) :
    ∃ k, i ≤ k ∧ k ≤ i + list.length ∧ names k ∉ list := by
  by_contra none
  have all : ((List.range' i (list.length + 1)).map names) ⊆ list := by
    intro name member
    obtain ⟨k, inRange, rfl⟩ := List.mem_map.mp member
    have bounds := List.mem_range'_1.mp inRange
    by_contra notMember
    exact none ⟨k, bounds.1, by omega, notMember⟩
  have distinct : ((List.range' i (list.length + 1)).map names).Nodup :=
    List.Nodup.map injective List.nodup_range'
  have count := (distinct.subperm all).length_le
  rw [List.length_map, List.length_range'] at count
  omega

/-- The first character of a name depends on the number modulo 54. -/
theorem startsLower_mod (isName : ∀ i, minifier.numberToMinifiedName i = some (names i)) (i : Nat) :
    startsLower (names i) = startsLower (names (i % 54)) := by
  have first (i : Nat) : ∃ c rest, minifier.head[i % 54]? = some c ∧ names i = c :: rest := by
    have isThis := isName i
    unfold NameMinifier.numberToMinifiedName at isThis
    obtain ⟨c, isHead, isThis⟩ := Option.bind_eq_some_iff.mp isThis
    obtain ⟨rest, _, isThis⟩ := Option.bind_eq_some_iff.mp isThis
    exact ⟨c, rest, isHead, (Option.some.inj isThis).symm⟩
  obtain ⟨c, rest, isHead, isThis⟩ := first i
  obtain ⟨c', rest', isHead', isOther⟩ := first (i % 54)
  rw [Nat.mod_mod, isHead] at isHead'
  cases isHead'
  rw [isThis, isOther]
  rfl

/-- There are 54 first characters, but only 26 lower-case letters. -/
theorem exists_capital (isName : ∀ i, minifier.numberToMinifiedName i = some (names i))
    (injective : Function.Injective names) (i : Nat) :
    ∃ k, i ≤ k ∧ k ≤ i + 53 ∧ startsLower (names k) = false := by
  have single (i : Nat) (small : i < 54) : ∃ c, names i = [c] := by
    have isThis := isName i
    unfold NameMinifier.numberToMinifiedName at isThis
    obtain ⟨c, _, isThis⟩ := Option.bind_eq_some_iff.mp isThis
    obtain ⟨rest, isRest, isThis⟩ := Option.bind_eq_some_iff.mp isThis
    rw [Nat.div_eq_of_lt small, tailName] at isRest
    cases isRest
    exact ⟨c, (Option.some.inj isThis).symm⟩
  have found : ∃ r, r < 54 ∧ startsLower (names r) = false := by
    by_contra none
    have all : ((List.range 54).map names) ⊆
        (List.range 26).map fun n => [UInt8.ofNat (97 + n)] := by
      intro name member
      obtain ⟨r, inRange, rfl⟩ := List.mem_map.mp member
      have small := List.mem_range.mp inRange
      have lower : startsLower (names r) = true := by
        by_contra notLower
        exact none ⟨r, small, by simpa using notLower⟩
      obtain ⟨c, isSingle⟩ := single r small
      rw [isSingle] at lower ⊢
      obtain ⟨isLow, isHigh⟩ := Bool.and_eq_true_iff.mp lower
      have low : 97 ≤ c.toNat := of_decide_eq_true isLow
      have high : c.toNat ≤ 122 := of_decide_eq_true isHigh
      refine List.mem_map.mpr ⟨c.toNat - 97, List.mem_range.mpr (by omega), ?_⟩
      rw [Nat.add_sub_cancel' low, UInt8.ofNat_toNat]
    have distinct : ((List.range 54).map names).Nodup := List.Nodup.map injective List.nodup_range
    have count := (distinct.subperm all).length_le
    rw [List.length_map, List.length_map, List.length_range, List.length_range] at count
    exact absurd count (by decide)
  obtain ⟨r, small, isCapital⟩ := found
  refine ⟨i + (r + 54 - i % 54) % 54, by omega, by omega, ?_⟩
  have isRest : (i + (r + 54 - i % 54) % 54) % 54 = r := by omega
  rw [startsLower_mod isName, isRest, isCapital]

end Loops

/-! ### One slot -/

/-- Each loop ends within so many turns. -/
def enoughTurns (reserved : List Name) : Nat := reserved.length + keywords.length + 54

section Slots

variable {minifier : NameMinifier} {names : Nat → Name} {reserved : List Name} {fuel : Nat}
  {ns : SlotNamespace}

/-- A name that may be given to a slot. -/
def LegalName (reserved : List Name) (ns : SlotNamespace) (needsCapitalForJsx : Bool)
    (name : Name) : Prop :=
  taken reserved ns name = false ∧ (needsCapitalForJsx = true → startsLower name = false)

theorem taken_written (reserved : List Name) (ns : SlotNamespace) (name : Name) :
    taken reserved ns (written ns name) = taken reserved ns name := by
  cases ns <;> rfl

theorem exists_firstFree (injective : Function.Injective names) (reserved : List Name)
    (ns : SlotNamespace) (next : Nat) :
    ∃ i, IsLeast {i | next ≤ i ∧ taken reserved ns (names i) = false} i ∧
      i < next + enoughTurns reserved := by
  have ofList (list : List Name) (short : list.length < enoughTurns reserved)
      (isTaken : taken reserved ns = list.contains) :
      ∃ i, IsLeast {i | next ≤ i ∧ taken reserved ns (names i) = false} i ∧
        i < next + enoughTurns reserved := by
    obtain ⟨k, from_next, near, free⟩ := exists_free injective list next
    have notTaken : taken reserved ns (names k) = false := by
      rw [isTaken]
      simpa using free
    obtain ⟨i, least, before⟩ := exists_least (fun i => taken reserved ns (names i) = false)
      from_next notTaken
    exact ⟨i, least, by omega⟩
  have atOnce (isTaken : taken reserved ns = fun _ => false) :
      ∃ i, IsLeast {i | next ≤ i ∧ taken reserved ns (names i) = false} i ∧
        i < next + enoughTurns reserved := by
    refine ⟨next, ⟨⟨Nat.le_refl _, by rw [isTaken]⟩, fun i isGood => isGood.1⟩, ?_⟩
    unfold enoughTurns
    omega
  cases ns with
  | default => exact ofList reserved (by unfold enoughTurns; omega) rfl
  | label => exact ofList keywords (by unfold enoughTurns; omega) rfl
  | mustNotBeRenamed => exact atOnce rfl
  | privateName => exact atOnce rfl
  | mangledProp => exact atOnce rfl

/-- Where nothing is taken the next name is the first free one. -/
theorem first_eq_next {next i : Nat} (isTaken : taken reserved ns = fun _ => false)
    (first : IsLeast {i | next ≤ i ∧ taken reserved ns (names i) = false} i) : i = next :=
  Nat.le_antisymm (first.2 ⟨Nat.le_refl _, by rw [isTaken]⟩) first.1.1

/-- Without a flag, or where the flag is not looked at, a slot gets the first free name. -/
theorem slotName_first (isName : ∀ i, minifier.numberToMinifiedName i = some (names i))
    {needsCapitalForJsx : Bool} {next i : Nat}
    (first : IsLeast {i | next ≤ i ∧ taken reserved ns (names i) = false} i)
    (enough : i - next < fuel) (plain : needsCapitalForJsx = false ∨ ns ≠ .default) :
    slotName minifier reserved fuel ns needsCapitalForJsx next =
      some (written ns (names i), i + 1) := by
  unfold slotName
  rw [isName]
  cases ns with
  | default =>
      have noFlag := plain.resolve_right fun notDefault => notDefault rfl
      show (renumberWhile minifier (taken reserved .default) fuel (names next, next + 1)).bind _ = _
      rw [renumberWhile_least isName first enough, noFlag]
      rfl
  | label => exact renumberWhile_least isName first enough
  | mustNotBeRenamed =>
      rw [first_eq_next rfl first]
      rfl
  | privateName =>
      rw [first_eq_next rfl first]
      rfl
  | mangledProp =>
      rw [first_eq_next rfl first]
      rfl

/-- With a flag it goes on to the first name that is not in lower case. -/
theorem slotName_capital (isName : ∀ i, minifier.numberToMinifiedName i = some (names i))
    {next i j : Nat} (first : IsLeast {i | next ≤ i ∧ taken reserved .default (names i) = false} i)
    (enough : i - next < fuel)
    (firstCapital : IsLeast {j | i ≤ j ∧ startsLower (names j) = false} j)
    (enough' : j - i < fuel) :
    slotName minifier reserved fuel .default true next = some (names j, j + 1) := by
  unfold slotName
  rw [isName]
  show (renumberWhile minifier (taken reserved .default) fuel (names next, next + 1)).bind _ = _
  rw [renumberWhile_least isName first enough]
  exact renumberWhile_least isName firstCapital enough'

/-- The slot gets a name with some number; the run goes on legally exactly where that name is
legal and the rest of the run is. -/
theorem slotName_step (isName : ∀ i, minifier.numberToMinifiedName i = some (names i))
    (injective : Function.Injective names) (enough : enoughTurns reserved ≤ fuel)
    (ns : SlotNamespace) (needsCapitalForJsx : Bool) (next : Nat) :
    ∃ index, next ≤ index ∧
      slotName minifier reserved fuel ns needsCapitalForJsx next =
        some (written ns (names index), index + 1) ∧
      ∀ flags, CapitalsAreFree names reserved ns next (needsCapitalForJsx :: flags) ↔
        LegalName reserved ns needsCapitalForJsx (written ns (names index)) ∧
          CapitalsAreFree names reserved ns (index + 1) flags := by
  obtain ⟨i, first, near⟩ := exists_firstFree injective reserved ns next
  have from_next := first.1.1
  cases needsCapitalForJsx with
  | false =>
      refine ⟨i, from_next, slotName_first isName first (by omega) (.inl rfl), fun flags => ?_⟩
      constructor
      · intro free
        cases free with
        | plain first' rest =>
            rw [first'.unique first] at rest
            exact ⟨⟨(taken_written ..).trans first.1.2, nofun⟩, rest⟩
      · rintro ⟨_, rest⟩
        exact .plain first rest
  | true =>
      by_cases isDefault : ns = .default
      · subst isDefault
        obtain ⟨k, from_i, close, isCapital⟩ := exists_capital isName injective i
        obtain ⟨j, firstCapital, before⟩ :=
          exists_least (fun j => startsLower (names j) = false) from_i isCapital
        have after := firstCapital.1.1
        have turns : 54 ≤ enoughTurns reserved := by
          unfold enoughTurns
          omega
        refine ⟨j, by omega, slotName_capital isName first (by omega) firstCapital (by omega),
          fun flags => ?_⟩
        constructor
        · intro free
          cases free with
          | capital isDefault first' firstCapital' free rest =>
              rw [first'.unique first] at firstCapital'
              rw [firstCapital'.unique firstCapital] at free rest
              exact ⟨⟨free, fun _ => firstCapital.1.2⟩, rest⟩
          | unread notDefault first' upper rest => exact absurd rfl notDefault
        · rintro ⟨⟨free, _⟩, rest⟩
          exact .capital rfl first firstCapital free rest
      · refine ⟨i, from_next, slotName_first isName first (by omega) (.inr isDefault),
          fun flags => ?_⟩
        constructor
        · intro free
          cases free with
          | capital isDefault' first' firstCapital' free rest => exact absurd isDefault' isDefault
          | unread notDefault first' upper rest =>
              rw [first'.unique first] at upper rest
              exact ⟨⟨(taken_written ..).trans first.1.2, fun _ => upper⟩, rest⟩
        · rintro ⟨⟨_, upper⟩, rest⟩
          exact .unread isDefault first (upper rfl) rest

/-! ### All slots of a namespace -/

/-- The slots have got the names of different numbers, and nothing else has changed. -/
structure Assigned (names : Nat → Name) (ns : SlotNamespace) (ks : List Nat) (next : Nat)
    (slots slots' : List SymbolSlot) (index : Nat → Nat) : Prop where
  named : ∀ k ∈ ks, slots'[k]? =
    slots[k]?.map fun slot => { slot with name := written ns (names (index k)) }
  others : ∀ k, k ∉ ks → slots'[k]? = slots[k]?
  from_next : ∀ k ∈ ks, next ≤ index k
  apart : ∀ k ∈ ks, ∀ l ∈ ks, index k = index l → k = l

theorem assignSlots_run (isName : ∀ i, minifier.numberToMinifiedName i = some (names i))
    (injective : Function.Injective names) (enough : enoughTurns reserved ≤ fuel)
    (ns : SlotNamespace) (flag : Nat → Bool) {ks : List Nat} {slots : List SymbolSlot}
    (flags : ∀ k slot, slots[k]? = some slot → slot.needsCapitalForJsx = flag k)
    (inside : ∀ k ∈ ks, k < slots.length) (distinct : ks.Nodup) (next : Nat) :
    ∃ slots' next' index,
      ks.foldlM (assignSlot minifier reserved fuel ns) (slots, next) = some (slots', next') ∧
      Assigned names ns ks next slots slots' index ∧
      (CapitalsAreFree names reserved ns next (ks.map flag) ↔
        ∀ k ∈ ks, LegalName reserved ns (flag k) (written ns (names (index k)))) := by
  induction ks generalizing slots next with
  | nil =>
      refine ⟨slots, next, fun _ => 0, rfl, ⟨nofun, fun _ _ => rfl, nofun, nofun⟩, ?_⟩
      exact ⟨fun _ => nofun, fun _ => .nil next⟩
  | cons k rest ih =>
      obtain ⟨notRest, restDistinct⟩ := List.nodup_cons.mp distinct
      have kInside := inside k (List.mem_cons_self ..)
      have isSlot := List.getElem?_eq_getElem kInside
      have isFlag := flags k _ isSlot
      obtain ⟨index, from_next, isNamed, legal⟩ :=
        slotName_step isName injective enough ns (flag k) next
      let named : SymbolSlot := { slots[k] with name := written ns (names index) }
      have isNamed' : slotName minifier reserved fuel ns slots[k].needsCapitalForJsx next =
          some (written ns (names index), index + 1) := by
        rw [isFlag, isNamed]
      have isStep : assignSlot minifier reserved fuel ns (slots, next) k =
          some (slots.set k named, index + 1) := by
        unfold assignSlot
        dsimp only
        rw [isSlot]
        show (slotName minifier reserved fuel ns slots[k].needsCapitalForJsx next).bind _ = _
        rw [isNamed']
        rfl
      have flags' (l : Nat) (slot : SymbolSlot) (isThis : (slots.set k named)[l]? = some slot) :
          slot.needsCapitalForJsx = flag l := by
        rw [List.getElem?_set] at isThis
        split at isThis
        · next isK =>
          subst isK
          cases isThis
          exact isFlag
        · exact flags l slot isThis
      obtain ⟨slots', next', index', ran, assigned, restLegal⟩ := ih flags'
        (fun l member => by
          rw [List.length_set]
          exact inside l (List.mem_cons_of_mem _ member)) restDistinct (index + 1)
      have notK {l : Nat} (member : l ∈ rest) : l ≠ k := by
        rintro rfl
        exact notRest member
      have isIndex {l : Nat} (member : l ∈ rest) : Function.update index' k index l = index' l :=
        Function.update_of_ne (notK member) ..
      have isIndexK : Function.update index' k index k = index := Function.update_self ..
      refine ⟨slots', next', Function.update index' k index, ?_, ⟨?_, ?_, ?_, ?_⟩, ?_⟩
      · rw [List.foldlM_cons, isStep]
        exact ran
      · intro l member
        rcases List.mem_cons.mp member with rfl | inRest
        · rw [isIndexK, assigned.others l notRest, List.getElem?_set_self kInside, isSlot]
          rfl
        · rw [isIndex inRest, assigned.named l inRest, List.getElem?_set_ne (notK inRest).symm]
      · intro l notMember
        rw [List.mem_cons, not_or] at notMember
        rw [assigned.others l notMember.2, List.getElem?_set_ne (Ne.symm notMember.1)]
      · intro l member
        rcases List.mem_cons.mp member with rfl | inRest
        · rw [isIndexK]
          exact from_next
        · have later := assigned.from_next l inRest
          rw [isIndex inRest]
          omega
      · intro l member l' member' same
        rcases List.mem_cons.mp member with rfl | inRest
        · rcases List.mem_cons.mp member' with rfl | inRest'
          · rfl
          · have later := assigned.from_next l' inRest'
            rw [isIndexK, isIndex inRest'] at same
            omega
        · rcases List.mem_cons.mp member' with rfl | inRest'
          · have later := assigned.from_next l inRest
            rw [isIndexK, isIndex inRest] at same
            omega
          · rw [isIndex inRest, isIndex inRest'] at same
            exact assigned.apart l inRest l' inRest' same
      · rw [List.map_cons, legal, restLegal, List.forall_mem_cons, isIndexK]
        apply and_congr_right
        intro _
        apply forall₂_congr
        intro l inRest
        rw [isIndex inRest]

theorem sortedSlots_perm (slots : List SymbolSlot) :
    ((sortedSlots slots).map SlotAndCount.slot).Perm (List.range slots.length) := by
  have unsorted : (slots.mapIdx fun i slot => { slot := i, count := slot.count : SlotAndCount }).map
      SlotAndCount.slot = List.range slots.length := by
    exact List.ext_getElem (by simp) (by simp)
  rw [← unsorted]
  exact (List.perm_insertionSort _ _).map _

theorem assignNamespace_legal (isName : ∀ i, minifier.numberToMinifiedName i = some (names i))
    (injective : Function.Injective names) (enough : enoughTurns reserved ≤ fuel)
    (ns : SlotNamespace) (slots : List SymbolSlot) :
    ∃ slots', assignNamespace minifier reserved fuel ns slots = some slots' ∧
      (slots'.map SymbolSlot.name).Nodup ∧
      (CapitalsAreFree names reserved ns 0 (flagsByFrequency slots) ↔
        ∀ slot ∈ slots', LegalName reserved ns slot.needsCapitalForJsx slot.name) := by
  have isPerm := sortedSlots_perm slots
  have allSlots (k : Nat) : k ∈ (sortedSlots slots).map SlotAndCount.slot ↔ k < slots.length :=
    isPerm.mem_iff.trans List.mem_range
  let flag (k : Nat) : Bool := slots[k]?.any SymbolSlot.needsCapitalForJsx
  have flags (k : Nat) (slot : SymbolSlot) (isSlot : slots[k]? = some slot) :
      slot.needsCapitalForJsx = flag k := by
    show slot.needsCapitalForJsx = slots[k]?.any SymbolSlot.needsCapitalForJsx
    rw [isSlot]
    rfl
  obtain ⟨slots', next', index, ran, assigned, legal⟩ :=
    assignSlots_run isName injective enough ns flag
      flags (fun k member => (allSlots k).mp member) (isPerm.nodup_iff.mpr List.nodup_range) 0
  have isFlags : ((sortedSlots slots).map SlotAndCount.slot).map flag = flagsByFrequency slots :=
    List.map_map
  have isSlot (k : Nat) : slots'[k]? =
      slots[k]?.map fun slot => { slot with name := written ns (names (index k)) } := by
    by_cases inside : k < slots.length
    · exact assigned.named k ((allSlots k).mpr inside)
    · rw [assigned.others k (mt (allSlots k).mp inside), List.getElem?_eq_none (by omega)]
      rfl
  refine ⟨slots', ?_, ?_, ?_⟩
  · unfold assignNamespace
    rw [ran]
    rfl
  · rw [List.nodup_iff_getElem?_ne_getElem?]
    intro k l before inside same
    rw [List.length_map] at inside
    obtain ⟨slot, isL⟩ : ∃ slot, slots[l]? = some slot := by
      have isThis := isSlot l
      rw [List.getElem?_eq_getElem inside] at isThis
      obtain ⟨slot, isL, _⟩ := Option.map_eq_some_iff.mp isThis.symm
      exact ⟨slot, isL⟩
    obtain ⟨lInside, _⟩ := List.getElem?_eq_some_iff.mp isL
    have isK := List.getElem?_eq_getElem (Nat.lt_trans before lInside)
    rw [List.getElem?_map, List.getElem?_map, isSlot, isSlot, isK, isL] at same
    have sameName : written ns (names (index k)) = written ns (names (index l)) :=
      Option.some.inj same
    have sameIndex : index k = index l := by
      apply injective
      cases ns with
      | privateName => exact List.append_cancel_left sameName
      | default => exact sameName
      | label => exact sameName
      | mustNotBeRenamed => exact sameName
      | mangledProp => exact sameName
    have isSame := assigned.apart k ((allSlots k).mpr (Nat.lt_trans before lInside)) l
      ((allSlots l).mpr lInside) sameIndex
    omega
  · rw [← isFlags, legal]
    constructor
    · intro all slot member
      obtain ⟨k, inside, isThis⟩ := List.getElem_of_mem member
      have isSlot' := isSlot k
      rw [List.getElem?_eq_getElem inside, isThis] at isSlot'
      obtain ⟨before, isBefore, rfl⟩ := Option.map_eq_some_iff.mp isSlot'.symm
      obtain ⟨kInside, _⟩ := List.getElem?_eq_some_iff.mp isBefore
      have isLegal := all k ((allSlots k).mpr kInside)
      rwa [← flags k before isBefore] at isLegal
    · intro all k member
      have kInside := (allSlots k).mp member
      have isSlot' := isSlot k
      rw [List.getElem?_eq_getElem kInside] at isSlot'
      have isLegal := all _ (List.mem_of_getElem? isSlot')
      rw [← flags k _ (List.getElem?_eq_getElem kInside)]
      exact isLegal

end Slots

/-! ### All namespaces -/

/-- The namespaces are named one after the other. -/
theorem assignNamesByFrequency_of {minifier : NameMinifier} {reserved : List Name} {fuel : Nat}
    {slots named : SlotNamespace → List SymbolSlot}
    (isNamed : ∀ ns, assignNamespace minifier reserved fuel ns (slots ns) = some (named ns)) :
    ∃ result, assignNamesByFrequency minifier reserved fuel slots = some result ∧
      ∀ ns ∈ slotNamespaces, result ns = named ns := by
  refine ⟨Function.update (Function.update (Function.update (Function.update slots
    .default (named .default)) .label (named .label)) .privateName (named .privateName))
    .mangledProp (named .mangledProp), ?_, fun ns member => ?_⟩
  · unfold assignNamesByFrequency slotNamespaces
    simp only [List.foldlM_cons, List.foldlM_nil, isNamed, Option.bind_eq_bind, Option.bind_some,
      Function.update_of_ne, ne_eq, reduceCtorEq, not_false_eq_true, Option.pure_def]
  · cases ns with
    | mustNotBeRenamed => exact absurd member (by decide)
    | default => rfl
    | label => rfl
    | privateName => rfl
    | mangledProp => rfl

/-- The names are assigned. Those of one namespace are different, and all are legal exactly where
no flagged slot comes upon a reserved capital name. -/
theorem assignNamesByFrequency_legal {minifier : NameMinifier} {names : Nat → Name}
    (isName : ∀ i, minifier.numberToMinifiedName i = some (names i))
    (injective : Function.Injective names) (reserved : List Name) {fuel : Nat}
    (enough : enoughTurns reserved ≤ fuel) (slots : SlotNamespace → List SymbolSlot) :
    ∃ result, assignNamesByFrequency minifier reserved fuel slots = some result ∧
      (LegalNames reserved result ↔ ∀ ns ∈ slotNamespaces,
        CapitalsAreFree names reserved ns 0 (flagsByFrequency (slots ns))) := by
  have assigned (ns : SlotNamespace) := assignNamespace_legal isName injective enough ns (slots ns)
  choose named isNamed distinct legal using assigned
  obtain ⟨result, ran, isResult⟩ := assignNamesByFrequency_of isNamed
  refine ⟨result, ran, ?_⟩
  constructor
  · intro isLegal ns member
    rw [legal ns]
    intro slot isSlot
    rw [← isResult ns member] at isSlot
    refine ⟨?_, isLegal.capital ns member slot isSlot⟩
    cases ns with
    | mustNotBeRenamed => rfl
    | default => simpa [taken] using isLegal.notReserved slot isSlot
    | label => exact isLegal.notKeyword slot isSlot
    | privateName => rfl
    | mangledProp => rfl
  · intro free
    constructor
    · intro ns member
      rw [isResult ns member]
      exact distinct ns
    · intro slot isSlot
      have isDefault : SlotNamespace.default ∈ slotNamespaces := List.mem_cons_self ..
      rw [isResult _ isDefault] at isSlot
      have isLegal := ((legal .default).mp (free _ isDefault) slot isSlot).1
      simpa [taken] using isLegal
    · intro ns member slot isSlot
      rw [isResult ns member] at isSlot
      exact ((legal ns).mp (free ns member) slot isSlot).2
    · intro slot isSlot
      have isLabel : SlotNamespace.label ∈ slotNamespaces := by decide
      rw [isResult _ isLabel] at isSlot
      exact ((legal .label).mp (free _ isLabel) slot isSlot).1

/-- Without flags nothing goes wrong. -/
theorem capitalsAreFree_of_noFlags {names : Nat → Name} (injective : Function.Injective names)
    (reserved : List Name) (ns : SlotNamespace) {flags : List Bool}
    (noFlags : ∀ flag ∈ flags, flag = false) (next : Nat) :
    CapitalsAreFree names reserved ns next flags := by
  induction flags generalizing next with
  | nil => exact .nil next
  | cons flag rest ih =>
      obtain rfl := noFlags flag (List.mem_cons_self ..)
      obtain ⟨i, first, _⟩ := exists_firstFree injective reserved ns next
      exact .plain first (ih (fun flag member =>
        noFlags flag (List.mem_cons_of_mem _ member)) _)

/-! ### The default characters -/

def defaultMinifier : NameMinifier := { head := defaultHead, tail := defaultTail }

theorem defaultMinifier_names : ∃ names : Nat → Name, Function.Injective names ∧
    ∀ i, defaultMinifier.numberToMinifiedName i = some (names i) := by
  have head : defaultHead.Nodup := by decide
  have tail : defaultTail.Nodup := by decide
  choose names isName using fun i =>
    @numberToMinifiedName_total defaultMinifier (by decide) (by decide) i
  refine ⟨names, fun i j same => ?_, isName⟩
  have isSame := isName j
  rw [← same] at isSame
  exact numberToMinifiedName_injective head tail (isName i) isSame

/-- Two slots, the second one used more, where `a` is reserved. -/
theorem assignNamesByFrequency_legal_sample :
    ∃ named, assignNamesByFrequency defaultMinifier [text "a"] 100 (fun _ =>
        [⟨[], 1, false⟩, ⟨[], 2, false⟩]) = some named ∧ LegalNames [text "a"] named := by
  obtain ⟨names, injective, isName⟩ := defaultMinifier_names
  obtain ⟨named, ran, legal⟩ := assignNamesByFrequency_legal isName injective [text "a"]
    (show enoughTurns [text "a"] ≤ 100 by decide) fun _ => [⟨[], 1, false⟩, ⟨[], 2, false⟩]
  refine ⟨named, ran, legal.mpr fun ns _ => capitalsAreFree_of_noFlags injective _ ns ?_ 0⟩
  decide

/-- A component gets the reserved name `A`. -/
theorem component_gets_reserved :
    ∃ result, assignNamesByFrequency defaultMinifier [text "A"] 100 (fun ns =>
        if ns = .default then [⟨[], 1, true⟩] else []) = some result ∧
      result .default = [⟨text "A", 1, true⟩] ∧ ¬LegalNames [text "A"] result := by
  have isNamed (ns : SlotNamespace) :
      assignNamespace defaultMinifier [text "A"] 100 ns
        (if ns = .default then [⟨[], 1, true⟩] else []) =
        some (if ns = .default then [⟨text "A", 1, true⟩] else []) := by
    cases ns with
    | default => decide +kernel
    | mustNotBeRenamed => rfl
    | label => rfl
    | privateName => rfl
    | mangledProp => rfl
  obtain ⟨result, ran, isResult⟩ := assignNamesByFrequency_of isNamed
  have isDefault := isResult .default (List.mem_cons_self ..)
  refine ⟨result, ran, isDefault, fun isLegal => ?_⟩
  exact isLegal.notReserved ⟨text "A", 1, true⟩ (by rw [isDefault]; exact List.mem_cons_self ..)
    (List.mem_cons_self ..)

end Bunx.Renamer
