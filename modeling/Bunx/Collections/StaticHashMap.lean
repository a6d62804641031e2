/-
Module: Bunx.Collections.StaticHashMap
Purpose: The hash-ordered map: its slots, insertion with displacement, look-up, deletion with
  backward shift, and growth, as the code computes them.
Trusted boundary: the allocator serves every request; the hash of a key is a parameter.
Main exports:
  Entry, HashMap, computeShift, computeOverflow, initCapacity, grow, ensureTotalCapacity,
  getOrPutAssumeCapacity, get, has, delete, MapOp, MapOp.call
-/
import Mathlib.Algebra.Ring.Int.Defs
import Mathlib.Algebra.Ring.Nat
import Mathlib.Data.Nat.Log

namespace Bunx.Collections

/-- `EMPTY_HASH`, `u64::MAX`. -/
def emptyHash : Nat := 2 ^ 64 - 1

structure Entry (K V : Type) where
  hash : Nat
  key : K
  value : V
deriving Repr, DecidableEq

namespace Entry

variable {K V : Type}

/-- `is_empty`. -/
def isEmpty (entry : Entry K V) : Bool := entry.hash == emptyHash

/-- `Entry::empty`: the placeholder key and value are the defaults. -/
def empty [Inhabited K] [Inhabited V] : Entry K V := ⟨emptyHash, default, default⟩

end Entry

/-- `compute_shift`. -/
def computeShift (capacity : Nat) : Nat := 63 - Nat.log 2 capacity + 1

/-- `compute_overflow`; at the shift 64 the subtraction wraps around to the same 0. -/
def computeOverflow (capacity shift : Nat) : Nat := (capacity / 10 + (64 - shift)) * 2

/-- `hash >> shift`; the shift of a `u64` is taken modulo 64. -/
def homeSlot (shift hash : Nat) : Nat := hash >>> (shift % 64)

/-- The slots, the number of entries and the shift of the hash. -/
structure HashMap (K V : Type) where
  entries : List (Entry K V)
  len : Nat
  shift : Nat
deriving Repr, DecidableEq

/-- What `get_or_put` leaves: whether the key was there, and the slot of the value. -/
structure GetOrPutResult (K V : Type) where
  foundExisting : Bool
  slot : Nat
  map : HashMap K V

namespace HashMap

variable {K V : Type}

/-- `1 << (63 - shift + 1)`. -/
def capacity (self : HashMap K V) : Nat := 2 ^ (64 - self.shift)

section Slots

variable [Inhabited K] [Inhabited V]

/-- `init_capacity`. -/
def initCapacity (capacity : Nat) : HashMap K V :=
  let shift := computeShift capacity
  { entries := List.replicate (capacity + computeOverflow capacity shift) Entry.empty
    len := 0
    shift := shift }

/-- The loop of `grow`; `none` is a write past the last new slot. -/
def growLoop (shift : Nat) : List (Entry K V) → List (Entry K V) → Nat → Option (List (Entry K V))
  | [], entries, _ => some entries
  | entry :: rest, entries, dst =>
      let i := if !entry.isEmpty then homeSlot shift entry.hash else 0
      let dst := if i ≥ dst then i else dst
      if dst < entries.length then growLoop shift rest (entries.set dst entry) (dst + 1)
      else none

/-- `grow`; `none` is a panic: no logarithm of a capacity that wrapped around to 0, or a slot
out of range. -/
def grow (self : HashMap K V) : Option (HashMap K V) :=
  let doubled := self.capacity * 2 % 2 ^ 64
  if doubled = 0 then none
  else
    let map : HashMap K V := initCapacity doubled
    let stop := self.capacity + computeOverflow self.capacity self.shift
    (growLoop map.shift (self.entries.take stop) map.entries 0).map fun entries =>
      { self with entries := entries, shift := map.shift }

/-- The loop of `ensure_total_capacity`; a capacity doubles at most 64 times. -/
def ensureLoop (maxLoad count : Nat) : Nat → HashMap K V → Option (HashMap K V)
  | 0, _ => none
  | doublings + 1, self =>
      if count ≤ self.capacity * maxLoad % 2 ^ 64 / 100 then some self
      else self.grow.bind (ensureLoop maxLoad count doublings)

/-- `ensure_total_capacity`. -/
def ensureTotalCapacity (maxLoad : Nat) (self : HashMap K V) (count : Nat) : Option (HashMap K V) :=
  ensureLoop maxLoad count 65 self

/-- `ensure_unused_capacity`. -/
def ensureUnusedCapacity (maxLoad : Nat) (self : HashMap K V) (count : Nat) :
    Option (HashMap K V) :=
  self.ensureTotalCapacity maxLoad (self.len + count)

end Slots

section Keys

variable [DecidableEq K]

/-- The loop of `get_or_put_assume_capacity`: the slots it leaves, whether the key was found,
and the slot of the value.  `none` is an index past the last slot, which the fuel outlasts. -/
def getOrPutLoop (key : K) :
    Nat → List (Entry K V) → Entry K V → Nat → Option Nat → Option (List (Entry K V) × Bool × Nat)
  | 0, _, _, _, _ => none
  | fuel + 1, entries, it, i, insertedAt =>
      match entries[i]? with
      | none => none
      | some entry =>
          if entry.hash ≥ it.hash then
            if entry.key = key then some (entries, true, i)
            else
              let entries := entries.set i it
              if entry.isEmpty then some (entries, false, insertedAt.getD i)
              else getOrPutLoop key fuel entries entry (i + 1) (some (insertedAt.getD i))
          else getOrPutLoop key fuel entries it (i + 1) insertedAt

variable (hash : K → Nat)

/-- `get_or_put_assume_capacity`. -/
def getOrPutAssumeCapacity [Inhabited V] (self : HashMap K V) (key : K) :
    Option (GetOrPutResult K V) :=
  (getOrPutLoop key (self.entries.length + 1) self.entries ⟨hash key, key, default⟩
    (homeSlot self.shift (hash key)) none).map fun (entries, found, slot) =>
      { foundExisting := found
        slot := slot
        map := { self with entries := entries, len := if found then self.len else self.len + 1 } }

/-- A write through `value_ptr`. -/
def writeValue (self : HashMap K V) (slot : Nat) (write : V → V) : HashMap K V :=
  { self with
    entries := self.entries.modify slot fun entry => { entry with value := write entry.value } }

/-- `put_assume_capacity`. -/
def putAssumeCapacity [Inhabited V] (self : HashMap K V) (key : K) (value : V) :
    Option (HashMap K V) :=
  (self.getOrPutAssumeCapacity hash key).map fun result =>
    if result.foundExisting then result.map else result.map.writeValue result.slot fun _ => value

/-- `put`. -/
def put [Inhabited K] [Inhabited V] (maxLoad : Nat) (self : HashMap K V) (key : K) (value : V) :
    Option (HashMap K V) :=
  (self.ensureUnusedCapacity maxLoad 1).bind fun map => map.putAssumeCapacity hash key value

/-- `get_or_put`. -/
def getOrPut [Inhabited K] [Inhabited V] (maxLoad : Nat) (self : HashMap K V) (key : K) :
    Option (GetOrPutResult K V) :=
  (self.ensureUnusedCapacity maxLoad 1).bind fun map => map.getOrPutAssumeCapacity hash key

/-- `for entry in &storage[home..] { if entry.hash >= hash`: the entry the look-up stops at;
`none` is the panic when the slots run out. -/
def stop (self : HashMap K V) (key : K) : Option (Entry K V) :=
  (self.entries.drop (homeSlot self.shift (hash key))).find? fun entry =>
    entry.hash ≥ hash key

/-- `get`. -/
def get (self : HashMap K V) (key : K) : Option (Option V) :=
  (self.stop hash key).map fun entry => if entry.key = key then some entry.value else none

/-- `has`. -/
def has (self : HashMap K V) (key : K) : Option Bool :=
  (self.stop hash key).map fun entry => decide (entry.key = key)

/-- The first loop of `delete`: the slot where the look-up stops. -/
def stopSlot (self : HashMap K V) (key : K) : Option Nat :=
  ((self.entries.drop (homeSlot self.shift (hash key))).findIdx? fun entry =>
    entry.hash ≥ hash key).map fun j => homeSlot self.shift (hash key) + j

/-- The second loop of `delete`: entries after the slot move back while they are not at
home. -/
def shiftBack [Inhabited K] [Inhabited V] (shift : Nat) :
    Nat → List (Entry K V) → Nat → Option (List (Entry K V))
  | 0, _, _ => none
  | fuel + 1, entries, i =>
      match entries[i + 1]? with
      | none => none
      | some next =>
          let j := homeSlot shift next.hash
          if decide (i < j) || next.isEmpty then some (entries.set i Entry.empty)
          else shiftBack shift fuel (entries.set i next) (i + 1)

/-- `delete`: the value removed and the map.  The length wraps around at 0. -/
def delete [Inhabited K] [Inhabited V] (self : HashMap K V) (key : K) :
    Option (Option V × HashMap K V) :=
  (self.stopSlot hash key).bind fun i =>
    (self.entries[i]?).bind fun entry =>
      if entry.key ≠ key then some (none, self)
      else
        (shiftBack self.shift (self.entries.length + 1) self.entries i).map fun entries =>
          (some entry.value, { self with entries := entries, len := (self.len + (2 ^ 64 - 1)) % 2 ^ 64 })

end Keys

end HashMap

/-! ### Calls -/

/-- A call; `getOrPut` goes on to change the value it points to. -/
inductive MapOp (K V : Type) where
  | put (key : K) (value : V)
  | getOrPut (key : K) (write : V → V)
  | get (key : K)
  | has (key : K)
  | delete (key : K)
  | ensureTotalCapacity (count : Nat)
  | ensureUnusedCapacity (count : Nat)

/-- What a call returns. -/
inductive MapAnswer (V : Type) where
  | done
  | found (existing : Bool)
  | value (value : Option V)
  | bool (value : Bool)
deriving DecidableEq

/-- One call; `none` is a panic. -/
def MapOp.call {K V : Type} [DecidableEq K] [Inhabited K] [Inhabited V] (hash : K → Nat)
    (maxLoad : Nat) (op : MapOp K V) (map : HashMap K V) : Option (MapAnswer V × HashMap K V) :=
  match op with
  | .put key value => (map.put hash maxLoad key value).map fun map => (.done, map)
  | .getOrPut key write =>
      (map.getOrPut hash maxLoad key).map fun result =>
        (.found result.foundExisting, result.map.writeValue result.slot write)
  | .get key => (map.get hash key).map fun value => (.value value, map)
  | .has key => (map.has hash key).map fun value => (.bool value, map)
  | .delete key => (map.delete hash key).map fun result => (.value result.1, result.2)
  | .ensureTotalCapacity count =>
      (map.ensureTotalCapacity maxLoad count).map fun map => (.done, map)
  | .ensureUnusedCapacity count =>
      (map.ensureUnusedCapacity maxLoad count).map fun map => (.done, map)

end Bunx.Collections
