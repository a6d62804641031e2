/-
Module: Bunx.Dotenv.Entries
Purpose: The entries that a file is read as, apart from the map they are put into, and what they
  leave in it.
Trusted boundary: none
Main exports: entriesFrom, entries, lastValue, parseLoop_eq, added, get_added, mem_added_iff,
  parseLoop_added
-/
import Bunx.Dotenv.EnvLoader

namespace Bunx.Dotenv

open Lib

/-! ### Reading -/

/-- The keys and values of a file from a position on, as its parsers of keys and values cut them
out; none where one of them leaves the file. -/
def entriesFrom (isProcess : Bool) (src : Text) : Nat → Nat → Option (List (Text × Text))
  | 0, pos => if pos < src.length then none else some []
  | fuel + 1, pos =>
      if pos < src.length then do
        match ← parseKey src pos with
        | (pos, none) => entriesFrom isProcess src fuel (← skipLine src pos)
        | (pos, some key) => do
            let (pos, value) ← parseValue isProcess src pos
            return (key, value) :: (← entriesFrom isProcess src fuel pos)
      else some []

def entries (isProcess : Bool) (src : Text) : Option (List (Text × Text)) :=
  entriesFrom isProcess src src.length 0

/-- The value of the last entry of a key. -/
def lastValue {V : Type} : List (Text × V) → Text → Option V
  | [], _ => none
  | (k, v) :: rest, key => (lastValue rest key).or (if k = key then some v else none)

theorem lastValue_map {V W : Type} (f : V → W) (list : List (Text × V)) (key : Text) :
    lastValue (list.map fun e => (e.1, f e.2)) key = (lastValue list key).map f := by
  induction list with
  | nil => rfl
  | cons e rest ih =>
      obtain ⟨k, v⟩ := e
      simp only [List.map_cons, lastValue, ih]
      by_cases same : k = key
      · cases lastValue rest key with
        | none => simp [same]
        | some later => rfl
      · simp [same]

theorem lastValue_mem {V : Type} {list : List (Text × V)} {key : Text} {value : V}
    (isLast : lastValue list key = some value) : (key, value) ∈ list := by
  induction list with
  | nil => cases isLast
  | cons e rest ih =>
      obtain ⟨k, v⟩ := e
      rcases Option.or_eq_some_iff.mp isLast with inRest | ⟨-, isHead⟩
      · exact List.mem_cons_of_mem _ (ih inRest)
      · split at isHead
        · next same =>
          rw [← same, ← Option.some.inj isHead]
          exact List.mem_cons_self ..
        · cases isHead

variable {override isProcess : Bool} {src : Text} {count : Nat} {map : Map}

/-- Reading and entering are apart: the map does not change how the file is read. -/
theorem parseLoop_eq {fuel pos : Nat} :
    parseLoop override isProcess src count fuel pos map =
      (entriesFrom isProcess src fuel pos).map
        (List.foldl (fun map e => enter override count map e.1 e.2) map) := by
  induction fuel generalizing pos map with
  | zero =>
      unfold parseLoop entriesFrom
      split
      · rfl
      · rfl
  | succ fuel ih =>
      unfold parseLoop entriesFrom
      split
      · cases parseKey src pos with
        | none => rfl
        | some read =>
            obtain ⟨behind, found⟩ := read
            cases found with
            | none =>
                cases isLine : skipLine src behind with
                | none => simp [isLine]
                | some next => simpa [isLine] using ih
            | some key =>
                cases isValue : parseValue isProcess src behind with
                | none => simp [isValue]
                | some result =>
                    obtain ⟨next, value⟩ := result
                    cases more : entriesFrom isProcess src fuel next with
                    | none => simp [isValue, ih, more]
                    | some rest => simp [isValue, ih, more]
      · rfl

/-! ### Entering -/

/-- What is put for a value of the file. -/
def entered (value : Text) : HashTableValue := { value, conditional := false }

local instance text_lawfulBEq : LawfulBEq Text := inferInstance

/-- The entries of the file whose keys are not known, in the order of their keys. -/
def added (known : List Text) (list : List (Text × Text)) (new : Map) : Map :=
  (list.filter (·.1 ∉ known)).foldl (fun new e => new.put e.1 fun _ => entered e.2) new

/-- An entry changes the ones before or the new ones. -/
theorem enter_append {old new : Map} (key value : Text) :
    enter override old.length (old ++ new) key value =
      if key ∈ old.keys then
        (if override then old.put key (fun _ => entered value) else old) ++ new
      else old ++ new.put key (fun _ => entered value) := by
  by_cases isKnown : key ∈ old.keys
  · obtain ⟨i, isIndex, inside⟩ := OrderedMap.indexOf_append_of_mem new isKnown
    cases override with
    | false => simp [enter, isIndex, inside, isKnown]
    | true =>
        simp only [enter, isIndex, isKnown, OrderedMap.put_append_of_mem isKnown, entered,
          Bool.true_eq_false, and_false, if_false, if_true]
  · rw [if_neg isKnown]
    unfold enter
    dsimp only
    rw [OrderedMap.put_append_of_not_mem isKnown]
    cases isIndex : OrderedMap.indexOf (old ++ new) key with
    | none => rfl
    | some i =>
        have notBefore : ¬ (i < old.length ∧ override = false) := fun before =>
          Nat.not_lt.mpr (OrderedMap.indexOf_append_of_not_mem isKnown isIndex) before.1
        simp only [notBefore, if_false]
        rfl

/-- The keys from before keep their places, and what is behind them is what the file adds. -/
theorem foldl_enter (override : Bool) (list : List (Text × Text)) (old new : Map) :
    ∃ old' : Map,
      list.foldl (fun map e => enter override old.length map e.1 e.2) (old ++ new) =
        old' ++ added old.keys list new ∧
      old'.keys = old.keys ∧ (override = false → old' = old) := by
  induction list generalizing old new with
  | nil => exact ⟨old, rfl, rfl, fun _ => rfl⟩
  | cons e rest ih =>
      obtain ⟨key, value⟩ := e
      rw [List.foldl_cons, enter_append]
      by_cases isKnown : key ∈ old.keys
      · have sameAdded : added old.keys ((key, value) :: rest) new = added old.keys rest new := by
          simp [added, isKnown]
        rw [if_pos isKnown, sameAdded]
        cases override with
        | false => exact ih old new
        | true =>
            have sameKeys : (old.put key fun _ => entered value).keys = old.keys := by
              rw [OrderedMap.keys_put, if_pos isKnown]
            have sameLength : (old.put key fun _ => entered value).length = old.length := by
              simpa only [OrderedMap.keys, List.length_map] using congrArg List.length sameKeys
            obtain ⟨old', isResult, isKeys, isSame⟩ :=
              ih (old.put key fun _ => entered value) new
            rw [sameLength, sameKeys] at isResult
            exact ⟨old', isResult, isKeys.trans sameKeys, fun absurdity => by cases absurdity⟩
      · have sameAdded : added old.keys ((key, value) :: rest) new =
            added old.keys rest (new.put key fun _ => entered value) := by
          simp [added, isKnown]
        rw [if_neg isKnown, sameAdded]
        exact ih old _

variable {known : List Text} {list : List (Text × Text)} {key : Text} {new : Map}

theorem get_added : (added known list new).get key =
    if key ∈ known then new.get key else ((lastValue list key).map entered).or (new.get key) := by
  induction list generalizing new with
  | nil => simp [added, lastValue]
  | cons e rest ih =>
      obtain ⟨k, v⟩ := e
      by_cases isKnown : k ∈ known
      · have sameAdded : added known ((k, v) :: rest) new = added known rest new := by
          simp [added, isKnown]
        rw [sameAdded, ih]
        by_cases keyKnown : key ∈ known
        · rw [if_pos keyKnown, if_pos keyKnown]
        · have different : k ≠ key := by
            rintro rfl
            exact keyKnown isKnown
          simp [keyKnown, lastValue, different]
      · have sameAdded : added known ((k, v) :: rest) new =
            added known rest (new.put k fun _ => entered v) := by
          simp [added, isKnown]
        rw [sameAdded, ih, OrderedMap.get_put]
        by_cases same : k = key
        · subst same
          rw [if_neg isKnown, if_neg isKnown]
          cases isLater : lastValue rest k with
          | none => simp [lastValue, isLater]
          | some later => simp [lastValue, isLater]
        · simp [lastValue, same]

theorem nodup_added (distinct : new.keys.Nodup) : (added known list new).keys.Nodup := by
  unfold added
  induction list.filter (·.1 ∉ known) generalizing new with
  | nil => exact distinct
  | cons e rest ih => exact ih (OrderedMap.nodup_put distinct)

/-- What the file adds to a map are the last values of the keys that are not in it. -/
theorem mem_added_iff {value : HashTableValue} :
    (key, value) ∈ added known list [] ↔
      key ∉ known ∧ ∃ text, lastValue list key = some text ∧ value = entered text := by
  have found : (key, value) ∈ added known list [] ↔
      (added known list []).get key = some value :=
    ⟨OrderedMap.get_of_mem (nodup_added List.nodup_nil), OrderedMap.mem_of_get⟩
  rw [found, get_added]
  by_cases isKnown : key ∈ known
  · simp [isKnown, OrderedMap.get]
  · cases isLast : lastValue list key with
    | none => simp [isKnown, OrderedMap.get]
    | some text => simp [isKnown, eq_comm]

/-- The map behind the loop of the parser. -/
theorem parseLoop_added (override : Bool) (map : Map) {list : List (Text × Text)}
    (isList : entries isProcess src = some list) :
    ∃ old : Map, parseLoop override isProcess src map.length src.length 0 map =
        some (old ++ added map.keys list []) ∧
      old.keys = map.keys ∧ (override = false → old = map) := by
  obtain ⟨old, isResult, sameKeys, same⟩ := foldl_enter override list map []
  have isEntries : entriesFrom isProcess src src.length 0 = some list := isList
  refine ⟨old, ?_, sameKeys, same⟩
  rw [parseLoop_eq, isEntries, Option.map_some, ← isResult, List.append_nil]

end Bunx.Dotenv
