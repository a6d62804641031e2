/-
Module: Bunx.Collections.HashMapRuns
Purpose: Over whole runs of calls, the hash-ordered map is a finite map, as long as the
  placeholder key is not looked up up to an empty slot, nor put.
Trusted boundary: none
Main exports:
  MapOp.Spec, MapOp.Clear, HashMapTrace, MapTrace, IsMap, mapCall_spec, hashMap_is_map,
  placeholder_found
-/
import Mathlib.Data.Finset.Card
import Bunx.Collections.HashMapUpdates
import Bunx.Collections.HashMapGrow

namespace Bunx.Collections

variable {K V : Type} [DecidableEq K] [Inhabited K] [Inhabited V]

namespace MapOp

/-- What a call does to a finite map.  The first value put under a key stays. -/
def Spec (op : MapOp K V) (m : K → Option V) (answer : MapAnswer V) (m' : K → Option V) : Prop :=
  match op with
  | put key value =>
      answer = .done ∧ m' = if (m key).isSome then m else Function.update m key (some value)
  | getOrPut key write =>
      answer = .found (m key).isSome ∧
        m' = Function.update m key (some (write ((m key).getD default)))
  | get key => answer = .value (m key) ∧ m' = m
  | has key => answer = .bool (m key).isSome ∧ m' = m
  | delete key => answer = .value (m key) ∧ m' = Function.update m key none
  | ensureTotalCapacity _ => answer = .done ∧ m' = m
  | ensureUnusedCapacity _ => answer = .done ∧ m' = m

/-- The key of the call is one of those used. -/
def Uses (used : Set K) (op : MapOp K V) : Prop :=
  match op with
  | put key _ | getOrPut key _ | get key | has key | delete key => key ∈ used
  | _ => True

/-- The slots reach without a gap from the home of the key to an entry whose hash is not
smaller. -/
def Reached (hash : K → Nat) (map : HashMap K V) (key : K) : Prop :=
  ∃ j b, homeSlot map.shift (hash key) ≤ j ∧ map.entries[j]? = some b ∧ b.isEmpty = false ∧
    hash key ≤ b.hash ∧ ∀ x, homeSlot map.shift (hash key) ≤ x → x < j → Filled map.entries x

/-- The placeholder key is not put, and where it is looked up, the look-up ends at an entry
and not at an empty slot. -/
def Clear (hash : K → Nat) (map : HashMap K V) (op : MapOp K V) : Prop :=
  match op with
  | put key _ | getOrPut key _ => key ≠ default
  | get key | has key | delete key => key = default → Reached hash map key
  | _ => True

end MapOp

/-- A run of calls that return. -/
inductive HashMapTrace (hash : K → Nat) (maxLoad : Nat) (guard : HashMap K V → MapOp K V → Prop) :
    HashMap K V → List (MapOp K V × MapAnswer V) → HashMap K V → Prop where
  | done {map : HashMap K V} : HashMapTrace hash maxLoad guard map [] map
  | call {map next final : HashMap K V} {op : MapOp K V} {answer : MapAnswer V}
      {events : List (MapOp K V × MapAnswer V)} (guarded : guard map op)
      (returned : op.call hash maxLoad map = some (answer, next))
      (rest : HashMapTrace hash maxLoad guard next events final) :
      HashMapTrace hash maxLoad guard map ((op, answer) :: events) final

/-- The same on a finite map. -/
inductive MapTrace : (K → Option V) → List (MapOp K V × MapAnswer V) → (K → Option V) → Prop where
  | done {m : K → Option V} : MapTrace m [] m
  | call {m next final : K → Option V} {op : MapOp K V} {answer : MapAnswer V}
      {events : List (MapOp K V × MapAnswer V)} (spec : op.Spec m answer next)
      (rest : MapTrace next events final) : MapTrace m ((op, answer) :: events) final

/-- The map stands for the finite map, and `len` is its size. -/
structure IsMap (hash : K → Nat) (used : Set K) (map : HashMap K V) (m : K → Option V) : Prop where
  valid : Valid hash used map
  holds : Holds map.entries m
  sized : ∃ keys : Finset K, (∀ key, key ∈ keys ↔ (m key).isSome = true) ∧ map.len = keys.card

variable {hash : K → Nat} {used : Set K} {map : HashMap K V} {m : K → Option V} {key : K}

/-! ### Looking up -/

/-- Without the placeholder key in the way, the look-up ends at an entry or at an empty slot
with another key. -/
theorem clear_filled {p : Nat} {e : Entry K V}
    (stops : Stops map.entries (hash key) (homeSlot map.shift (hash key)) p e)
    (clear : key = default → MapOp.Reached hash map key) (isDefault : key = default) :
    e.isEmpty = false := by
  obtain ⟨j, b, least, isB, filledB, large, run⟩ := clear isDefault
  rcases Nat.lt_trichotomy p j with before | rfl | after
  · obtain ⟨c, isC, filledC⟩ := run p stops.after before
    rw [stops.there] at isC
    cases isC
    exact filledC
  · have isE := stops.there
    rw [isB] at isE
    cases isE
    exact filledB
  · obtain ⟨c, isC, smaller⟩ := stops.before j least after
    rw [isB] at isC
    cases isC
    omega

/-- The entry a look-up ends at tells whether the key is in the map. -/
theorem IsMap.lookUp (isMap : IsMap hash used map m) {p : Nat} {e : Entry K V}
    (stops : Stops map.entries (hash key) (homeSlot map.shift (hash key)) p e)
    (clear : key = default → e.isEmpty = false) :
    if e.key = key then e.isEmpty = false ∧ m key = some e.value
    else m key = none ∧ Absent map.entries key := by
  have slots := isMap.valid.slots
  by_cases isKey : e.key = key
  · rw [if_pos isKey]
    have filled : e.isEmpty = false := by
      cases isEmpty : e.isEmpty with
      | false => rfl
      | true =>
          have := clear (by rw [← isKey, slots.placeholder stops.there isEmpty])
          rw [isEmpty] at this
          exact this
    exact ⟨filled, (isMap.holds key e.value).mpr ⟨p, e, stops.there, filled, isKey, rfl⟩⟩
  · rw [if_neg isKey]
    have absent : Absent map.entries key := by
      intro i a isA filledA sameKey
      obtain ⟨_, rfl⟩ := stops_found slots stops isA filledA sameKey
      exact isKey sameKey
    refine ⟨?_, absent⟩
    cases isValue : m key with
    | none => rfl
    | some value =>
        obtain ⟨i, a, isA, filledA, sameKey, _⟩ := (isMap.holds key value).mp isValue
        exact absurd sameKey (absent i a isA filledA)

theorem mapGet_spec (isMap : IsMap hash used map m)
    (clear : key = default → MapOp.Reached hash map key) {value : Option V} (returned : map.get hash key = some value) : value = m key := by
  obtain ⟨e, isStop, rfl⟩ := Option.map_eq_some_iff.mp returned
  obtain ⟨p, stops⟩ := find?_stops isStop
  have found := isMap.lookUp stops (clear_filled stops clear)
  by_cases isKey : e.key = key
  · rw [if_pos isKey] at found ⊢
    exact found.2.symm
  · rw [if_neg isKey] at found ⊢
    exact found.1.symm

theorem mapHas_spec (isMap : IsMap hash used map m)
    (clear : key = default → MapOp.Reached hash map key) {value : Bool} (returned : map.has hash key = some value) : value = (m key).isSome := by
  obtain ⟨e, isStop, rfl⟩ := Option.map_eq_some_iff.mp returned
  obtain ⟨p, stops⟩ := find?_stops isStop
  have found := isMap.lookUp stops (clear_filled stops clear)
  by_cases isKey : e.key = key
  · rw [if_pos isKey] at found
    rw [found.2, decide_eq_true isKey]
    rfl
  · rw [if_neg isKey] at found
    rw [found.1, decide_eq_false isKey]
    rfl

/-! ### Sizes -/

/-- A new key makes the map one larger. -/
theorem sized_insert {keys : Finset K} (isKeys : ∀ k, k ∈ keys ↔ (m k).isSome = true)
    (isNone : m key = none) (value : V) :
    (∀ k, k ∈ insert key keys ↔ ((Function.update m key (some value)) k).isSome = true) ∧
      (insert key keys).card = keys.card + 1 := by
  constructor
  · intro k
    by_cases same : k = key
    · rw [same, Function.update_self]
      simp
    · rw [Function.update_of_ne same, Finset.mem_insert, isKeys k]
      exact or_iff_right same
  · apply Finset.card_insert_of_notMem
    rw [isKeys key, isNone]
    exact Bool.false_ne_true

/-- Another value for a key leaves the size. -/
theorem sized_write {keys : Finset K} (isKeys : ∀ k, k ∈ keys ↔ (m k).isSome = true)
    (isSome : (m key).isSome = true) (value : V) :
    ∀ k, k ∈ keys ↔ ((Function.update m key (some value)) k).isSome = true := by
  intro k
  by_cases same : k = key
  · rw [same, Function.update_self, isKeys key]
    exact iff_of_true isSome rfl
  · rw [Function.update_of_ne same, isKeys k]

/-- There are fewer keys than hashes. -/
theorem IsMap.card_lt (hashing : Hashing hash used) (isMap : IsMap hash used map m)
    {keys : Finset K} (isKeys : ∀ k, k ∈ keys ↔ (m k).isSome = true) : keys.card < 2 ^ 64 := by
  have isUsed : ∀ k ∈ keys, k ∈ used := by
    intro k isKey
    obtain ⟨value, isValue⟩ := Option.isSome_iff_exists.mp ((isKeys k).mp isKey)
    obtain ⟨i, a, isA, filledA, rfl, _⟩ := (isMap.holds k value).mp isValue
    exact (isMap.valid.slots.keyed isA filledA).1
  have few : keys.card ≤ (Finset.range emptyHash).card := by
    apply Finset.card_le_card_of_injOn hash
    · intro k isKey
      exact Finset.mem_coe.mpr (Finset.mem_range.mpr (hashing.small k (isUsed k isKey)))
    · intro k isKey k' isKey' same
      exact hashing.injective (isUsed k isKey) (isUsed k' isKey') same
  rw [Finset.card_range] at few
  unfold emptyHash at few
  omega

/-! ### Putting -/

/-- A new key is inserted where its look-up stops. -/
theorem getOrPutLoop_inserts (hashing : Hashing hash used) (isUsed : key ∈ used)
    (notDefault : key ≠ default) {shift : Nat} {entries : List (Entry K V)}
    (slots : Slots hash used shift entries) (absent : Absent entries key) {p fuel : Nat}
    {e : Entry K V} {value : V} {out : List (Entry K V) × Bool × Nat}
    (stops : Stops entries (hash key) (homeSlot shift (hash key)) p e)
    (outcome : (e.isEmpty = true ∧ out = (entries.set p ⟨hash key, key, value⟩, false, p)) ∨
      (e.isEmpty = false ∧ HashMap.getOrPutLoop key fuel (entries.set p ⟨hash key, key, value⟩) e
        (p + 1) (some p) = some out)) :
    ∃ q, out.2 = (false, p) ∧
      Inserts hash used shift entries out.1 ⟨hash key, key, value⟩ e p q := by
  have inside : p < entries.length := (List.getElem?_eq_some_iff.mp stops.there).1
  rcases outcome with ⟨isEmpty, rfl⟩ | ⟨isFilled, returned⟩
  · refine ⟨p, rfl, isUsed, rfl, stops, absent, Nat.le_refl p, ⟨e, stops.there, isEmpty⟩,
      fun x least below => by omega, ?_⟩
    intro x
    by_cases here : x = p
    · rw [here, if_pos ⟨Nat.le_refl p, Nat.le_refl p⟩, if_pos rfl, List.getElem?_set_self inside]
    · rw [if_neg (by omega), List.getElem?_set_ne (Ne.symm here)]
  · have same : ∀ x, p + 1 ≤ x →
        (entries.set p ⟨hash key, key, value⟩)[x]? = entries[x]? := by
      intro x later
      rw [List.getElem?_set_ne (by omega)]
    have ascending : ∀ (x y : Nat) (a b : Entry K V), x < y → entries[x]? = some a →
        entries[y]? = some b → a.isEmpty = false → a.hash ≤ b.hash := by
      intro x y a b lt isA isB filledA
      cases emptyB : b.isEmpty with
      | false => exact Nat.le_of_lt (slots.sorted lt isA isB filledA emptyB)
      | true =>
          obtain ⟨isUsedA, hashA⟩ := slots.keyed isA filledA
          rw [hash_of_isEmpty emptyB, hashA]
          exact Nat.le_of_lt (hashing.small _ isUsedA)
    obtain ⟨q, b, after, isQ, emptyQ, run, isOut, moved⟩ := getOrPutLoop_shifts fuel returned
      (by
        intro x a later isA
        rw [same x later] at isA
        exact ascending p x e a later stops.there isA isFilled)
      (by
        intro x y a b later lt isA isB
        rw [same x later] at isA
        rw [same y (by omega)] at isB
        exact ascending x y a b lt isA isB)
      (by
        intro x a later isA
        rw [same x later] at isA
        cases emptyA : a.isEmpty with
        | false => exact absent x a isA emptyA
        | true =>
            rw [slots.placeholder isA emptyA]
            exact Ne.symm notDefault)
    rw [same q after] at isQ
    refine ⟨q, isOut, isUsed, rfl, stops, absent, by omega, ⟨b, isQ, emptyQ⟩, ?_, ?_⟩
    · intro x least below
      rcases Nat.eq_or_lt_of_le least with rfl | later
      · exact ⟨e, stops.there, isFilled⟩
      · obtain ⟨c, isC, filledC⟩ := run x later below
        rw [same x later] at isC
        exact ⟨c, isC, filledC⟩
    · intro x
      rw [moved x]
      by_cases inRun : p + 1 ≤ x ∧ x ≤ q
      · rw [if_pos inRun, if_pos (show p ≤ x ∧ x ≤ q by omega), if_neg (show x ≠ p by omega)]
        by_cases next : x = p + 1
        · rw [if_pos next, next, Nat.add_sub_cancel, stops.there]
        · rw [if_neg next, same (x - 1) (by omega)]
      · rw [if_neg inRun]
        by_cases here : x = p
        · rw [here, if_pos (show p ≤ p ∧ p ≤ q by omega), if_pos rfl,
            List.getElem?_set_self inside]
        · rw [if_neg (by omega), List.getElem?_set_ne (Ne.symm here)]

/-- `get_or_put_assume_capacity`, then a write through the pointer it returns. -/
theorem mapGetOrPut_spec (hashing : Hashing hash used) (isMap : IsMap hash used map m)
    (isUsed : key ∈ used) (notDefault : key ≠ default) {result : GetOrPutResult K V}
    (returned : map.getOrPutAssumeCapacity hash key = some result) (write : V → V) :
    result.foundExisting = (m key).isSome ∧ (result.foundExisting = true → result.map = map) ∧
      IsMap hash used (result.map.writeValue result.slot write)
        (Function.update m key (some (write ((m key).getD default)))) := by
  have slots := isMap.valid.slots
  obtain ⟨keys, isKeys, isLen⟩ := isMap.sized
  obtain ⟨⟨entries, found, slot⟩, loops, rfl⟩ := Option.map_eq_some_iff.mp returned
  obtain ⟨p, e, stops, outcome⟩ := getOrPutLoop_stops _ loops
  have lookUp := isMap.lookUp stops (fun isDefault => absurd isDefault notDefault)
  by_cases isKey : e.key = key
  · -- the key is there
    rw [if_pos isKey] at lookUp
    obtain ⟨isFilled, isValue⟩ := lookUp
    have isOut : (entries, found, slot) = (map.entries, true, p) := by
      rcases outcome with ⟨_, same⟩ | ⟨other, _⟩ | ⟨other, _⟩
      · exact same
      · exact absurd isKey other
      · exact absurd isKey other
    cases isOut
    have written := modify_spec slots isMap.holds stops.there isFilled write
    rw [isKey] at written
    refine ⟨by rw [isValue]; rfl, fun _ => rfl, ?_⟩
    rw [isValue]
    refine ⟨⟨isMap.valid.shifted, ?_, written.1⟩, written.2, keys, ?_, isLen⟩
    · exact (List.length_modify _ _ _).trans isMap.valid.size
    · exact sized_write isKeys (by rw [isValue]; rfl) _
  · -- the key is new
    rw [if_neg isKey] at lookUp
    obtain ⟨isNone, absent⟩ := lookUp
    have inserted : ∃ fuel, (e.isEmpty = true ∧
        (entries, found, slot) = (map.entries.set p ⟨hash key, key, default⟩, false, p)) ∨
        (e.isEmpty = false ∧ HashMap.getOrPutLoop key fuel
          (map.entries.set p ⟨hash key, key, default⟩) e (p + 1) (some p) =
            some (entries, found, slot)) := by
      rcases outcome with ⟨same, _⟩ | ⟨_, isEmpty, isOut⟩ | ⟨_, isFilled, fuel, shifts⟩
      · exact absurd same isKey
      · exact ⟨0, .inl ⟨isEmpty, isOut⟩⟩
      · exact ⟨fuel, .inr ⟨isFilled, shifts⟩⟩
    obtain ⟨fuel, inserted⟩ := inserted
    obtain ⟨q, isOut, inserts⟩ := getOrPutLoop_inserts hashing isUsed notDefault slots absent stops
      inserted
    cases isOut
    have newSlots := inserts.slots hashing slots
    have newHolds := inserts.holds hashing isMap.holds
    have there : entries[slot]? = some ⟨hash key, key, default⟩ := by
      rw [inserts.moved, if_pos ⟨Nat.le_refl slot, inserts.after⟩, if_pos rfl]
    have written := modify_spec newSlots newHolds there (inserts.filled_it hashing) write
    rw [Function.update_idem] at written
    have long := inserts.length
    obtain ⟨newKeys, newCard⟩ := sized_insert isKeys isNone (write default)
    refine ⟨by rw [isNone]; rfl, fun isFound => absurd isFound Bool.false_ne_true, ?_⟩
    rw [isNone]
    refine ⟨⟨isMap.valid.shifted, ?_, written.1⟩, written.2, insert key keys, newKeys, ?_⟩
    · show (entries.modify slot _).length = _
      rw [List.length_modify, long]
      exact isMap.valid.size
    · show map.len + 1 = _
      rw [newCard, isLen]

/-! ### Deleting -/

theorem mapDelete_spec (hashing : Hashing hash used) (isMap : IsMap hash used map m)
    (clear : key = default → MapOp.Reached hash map key) {value : Option V} {next : HashMap K V}
    (returned : map.delete hash key = some (value, next)) :
    value = m key ∧ IsMap hash used next (Function.update m key none) := by
  have slots := isMap.valid.slots
  obtain ⟨keys, isKeys, isLen⟩ := isMap.sized
  obtain ⟨p, isSlot, rest⟩ := Option.bind_eq_some_iff.mp returned
  obtain ⟨j, isIndex, rfl⟩ := Option.map_eq_some_iff.mp isSlot
  obtain ⟨e, stops⟩ := findIdx?_stops isIndex
  rw [stops.there, Option.bind_some] at rest
  have lookUp := isMap.lookUp stops (clear_filled stops clear)
  by_cases isKey : e.key = key
  · rw [if_pos isKey] at lookUp
    obtain ⟨isFilled, isValue⟩ := lookUp
    rw [if_neg (not_not.mpr isKey)] at rest
    obtain ⟨closed, shifts, isOut⟩ := Option.map_eq_some_iff.mp rest
    cases isOut
    have inside := (List.getElem?_eq_some_iff.mp stops.there).1
    obtain ⟨r, isClosed⟩ := shiftBack_closed _ inside shifts
    have newHolds := isClosed.holds slots stops.there isFilled isMap.holds
    rw [isKey] at newHolds
    have isMember : key ∈ keys := by
      rw [isKeys key, isValue]
      rfl
    have few := isMap.card_lt hashing isKeys
    have some_ := Finset.card_pos.mpr ⟨key, isMember⟩
    have long := isClosed.length
    refine ⟨isValue.symm, ⟨isMap.valid.shifted, ?_, isClosed.slots slots⟩, newHolds,
      keys.erase key, ?_, ?_⟩
    · show closed.length = _
      rw [long]
      exact isMap.valid.size
    · intro k
      by_cases same : k = key
      · rw [same, Function.update_self]
        simp
      · rw [Function.update_of_ne same, Finset.mem_erase, isKeys k]
        exact and_iff_right same
    · rw [Finset.card_erase_of_mem isMember]
      show (map.len + (2 ^ 64 - 1)) % 2 ^ 64 = _
      rw [isLen]
      omega
  · rw [if_neg isKey] at lookUp
    rw [if_pos isKey] at rest
    cases rest
    have same : Function.update m key none = m := by
      rw [← lookUp.1, Function.update_eq_self]
    rw [same]
    exact ⟨lookUp.1.symm, isMap⟩

/-! ### Runs -/

omit [DecidableEq K] in
theorem mapEnsure_spec (hashing : Hashing hash used) (isMap : IsMap hash used map m)
    {maxLoad count : Nat} {grown : HashMap K V} (returned : map.ensureTotalCapacity maxLoad count = some grown) :
    IsMap hash used grown m := by
  obtain ⟨valid, sameLen, kept⟩ := ensureLoop_spec hashing maxLoad count 65 isMap.valid returned
  obtain ⟨keys, isKeys, isLen⟩ := isMap.sized
  exact ⟨valid, kept m isMap.holds, keys, isKeys, by rw [sameLen, isLen]⟩

/-- Every call that returns is the call on the finite map. -/
theorem mapCall_spec (hashing : Hashing hash used) {maxLoad : Nat} (isMap : IsMap hash used map m)
    {op : MapOp K V} (uses : op.Uses used) (clear : op.Clear hash map) {answer : MapAnswer V}
    {next : HashMap K V} (returned : op.call hash maxLoad map = some (answer, next)) :
    ∃ m', op.Spec m answer m' ∧ IsMap hash used next m' := by
  cases op with
  | put key value =>
      obtain ⟨after, puts, isOut⟩ := Option.map_eq_some_iff.mp returned
      cases isOut
      obtain ⟨grown, grows, assumes⟩ := Option.bind_eq_some_iff.mp puts
      obtain ⟨result, isResult, rfl⟩ := Option.map_eq_some_iff.mp assumes
      have isGrown := mapEnsure_spec hashing isMap grows
      obtain ⟨isFound, unchanged, written⟩ :=
        mapGetOrPut_spec hashing isGrown uses clear isResult fun _ => value
      refine ⟨_, ⟨rfl, rfl⟩, ?_⟩
      by_cases found : result.foundExisting = true
      · rw [if_pos found, unchanged found, if_pos (by rw [← isFound, found])]
        exact isGrown
      · rw [if_neg found, if_neg (by rw [← isFound]; exact found)]
        exact written
  | getOrPut key write =>
      obtain ⟨result, puts, isOut⟩ := Option.map_eq_some_iff.mp returned
      cases isOut
      obtain ⟨grown, grows, assumes⟩ := Option.bind_eq_some_iff.mp puts
      obtain ⟨isFound, _, written⟩ := mapGetOrPut_spec hashing (mapEnsure_spec hashing isMap grows) uses
        clear assumes write
      exact ⟨_, ⟨by rw [isFound], rfl⟩, written⟩
  | get key =>
      obtain ⟨value, gets, isOut⟩ := Option.map_eq_some_iff.mp returned
      cases isOut
      exact ⟨m, ⟨by rw [mapGet_spec isMap clear gets], rfl⟩, isMap⟩
  | has key =>
      obtain ⟨value, gets, isOut⟩ := Option.map_eq_some_iff.mp returned
      cases isOut
      exact ⟨m, ⟨by rw [mapHas_spec isMap clear gets], rfl⟩, isMap⟩
  | delete key =>
      obtain ⟨⟨value, after⟩, deletes, isOut⟩ := Option.map_eq_some_iff.mp returned
      cases isOut
      obtain ⟨isValue, isMap'⟩ := mapDelete_spec hashing isMap clear deletes
      exact ⟨_, ⟨by rw [isValue], rfl⟩, isMap'⟩
  | ensureTotalCapacity count =>
      obtain ⟨after, grows, isOut⟩ := Option.map_eq_some_iff.mp returned
      cases isOut
      exact ⟨m, ⟨rfl, rfl⟩, mapEnsure_spec hashing isMap grows⟩
  | ensureUnusedCapacity count =>
      obtain ⟨after, grows, isOut⟩ := Option.map_eq_some_iff.mp returned
      cases isOut
      exact ⟨m, ⟨rfl, rfl⟩, mapEnsure_spec hashing isMap grows⟩

/-- A run of calls is a run on the finite map, with the same answers. -/
theorem mapTrace_spec (hashing : Hashing hash used) {maxLoad : Nat}
    {events : List (MapOp K V × MapAnswer V)} {final : HashMap K V}
    (run : HashMapTrace hash maxLoad (fun map op => op.Uses used ∧ op.Clear hash map) map events
      final) : ∀ {m : K → Option V}, IsMap hash used map m →
      ∃ m', MapTrace m events m' ∧ IsMap hash used final m' := by
  induction run with
  | done =>
      intro m isMap
      exact ⟨m, .done, isMap⟩
  | call guarded returned _ ih =>
      intro m isMap
      obtain ⟨middle, spec, isMap'⟩ := mapCall_spec hashing isMap guarded.1 guarded.2 returned
      obtain ⟨m', traced, isMap''⟩ := ih isMap'
      exact ⟨m', .call spec traced, isMap''⟩

/-- The hash-ordered map is a map: its answers, its length, the order of its slots, and growth
that stays within the new slots. -/
theorem hashMap_is_map (hashing : Hashing hash used) {n maxLoad : Nat} (small : n < 64)
    {events : List (MapOp K V × MapAnswer V)} {final : HashMap K V}
    (run : HashMapTrace hash maxLoad (fun map op => op.Uses used ∧ op.Clear hash map)
      (HashMap.initCapacity (2 ^ n)) events final) :
    ∃ m : K → Option V, MapTrace (fun _ => none) events m ∧
      (∃ keys : Finset K, (∀ key, key ∈ keys ↔ (m key).isSome = true) ∧ final.len = keys.card) ∧
      Ordered final.shift final.entries ∧ (1 < final.shift → ∃ grown, final.grow = some grown) := by
  have start : IsMap hash used (HashMap.initCapacity (2 ^ n) : HashMap K V) fun _ => none := by
    refine ⟨initCapacity_valid small, ?_, ∅, by simp, rfl⟩
    intro key value
    constructor
    · intro isValue
      cases isValue
    · rintro ⟨i, a, isA, filledA, _⟩
      rw [HashMap.initCapacity, List.getElem?_replicate] at isA
      split at isA
      · cases isA
        exact absurd (filledA.symm.trans (beq_self_eq_true emptyHash)) Bool.false_ne_true
      · cases isA
  obtain ⟨m, traced, isMap⟩ := mapTrace_spec hashing run start
  refine ⟨m, traced, isMap.sized, isMap.valid.slots.toOrdered, ?_⟩
  intro room
  obtain ⟨grown, grows, _⟩ := grow_spec hashing isMap.valid room
  exact ⟨grown, grows⟩

/-! ### Sixteen slots, keys hashed to themselves -/

def sampleHash (key : Nat) : Nat := key

/-- The map after `put(1, 5)`. -/
def sampleMap : HashMap Nat Nat :=
  { entries := ⟨1, 1, 5⟩ :: List.replicate 25 Entry.empty, len := 1, shift := 60 }

theorem sampleHashing (key : Nat) (small : key < emptyHash) : Hashing sampleHash {key} where
  injective := Set.injOn_singleton sampleHash key
  small := by
    rintro k rfl
    exact small

theorem hashMap_is_map_sample :
    ∃ m : Nat → Option Nat,
      MapTrace (fun _ => none) [(.put 1 5, .done), (.get 1, .value (some 5))] m ∧
      (∃ keys : Finset Nat, (∀ key, key ∈ keys ↔ (m key).isSome = true) ∧
        sampleMap.len = keys.card) ∧
      Ordered sampleMap.shift sampleMap.entries ∧
      (1 < sampleMap.shift → ∃ grown, sampleMap.grow = some grown) := by
  have put : MapOp.call sampleHash 50 (.put 1 5) (HashMap.initCapacity (2 ^ 4)) =
      some (.done, sampleMap) := by decide +kernel
  have get : MapOp.call sampleHash 50 (.get 1) sampleMap = some (.value (some 5), sampleMap) := by
    decide +kernel
  exact hashMap_is_map (sampleHashing 1 (by decide)) (by decide)
    (.call ⟨rfl, Nat.one_ne_zero⟩ put
      (.call ⟨rfl, fun isDefault => absurd isDefault Nat.one_ne_zero⟩ get .done))

/-- The key 0 is that of the empty slots: put into the empty map it counts as found, its value
is lost, and looked up it has the value of the empty slot. -/
theorem placeholder_found :
    Hashing sampleHash {0} ∧
      ∃ events final, HashMapTrace sampleHash 50 (fun _ op => op.Uses {0})
        (HashMap.initCapacity (2 ^ 4) : HashMap Nat Nat) events final ∧
        ¬∃ m, MapTrace (fun _ => none) events m := by
  refine ⟨sampleHashing 0 (by decide), [(.put 0 5, .done), (.get 0, .value (some 0))],
    HashMap.initCapacity (2 ^ 4), ?_, ?_⟩
  · have put : MapOp.call sampleHash 50 (.put 0 5) (HashMap.initCapacity (2 ^ 4)) =
        some (.done, HashMap.initCapacity (2 ^ 4)) := by decide +kernel
    have get : MapOp.call sampleHash 50 (.get 0) (HashMap.initCapacity (2 ^ 4)) =
        some (.value (some 0), HashMap.initCapacity (2 ^ 4)) := by decide +kernel
    exact .call rfl put (.call rfl get .done)
  · rintro ⟨m, traced⟩
    rcases traced with _ | ⟨⟨_, rfl⟩, rest⟩
    rcases rest with _ | ⟨⟨isValue, _⟩, _⟩
    exact absurd (show (some 0 : Option Nat) = some 5 from MapAnswer.value.inj isValue) (by decide)

end Bunx.Collections
