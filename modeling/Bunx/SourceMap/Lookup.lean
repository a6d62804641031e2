/-
Module: Bunx.SourceMap.Lookup
Purpose: The lookups of an InternalSourceMap: `find`, the decode cache of
  `find_with_cache`, and the forward cursor.
Trusted boundary: the bytes behind a live address do not change.
Main exports:
  Mapping, locateWindow, find, FindCache, FindCache.invalidate, FindCache.invalidateAll,
  findWithCache, Cursor, Cursor.moveTo
-/
import Bunx.Lib.BinarySearch
import Bunx.SourceMap.Reader

namespace Bunx.SourceMap

open Lib

structure LineColumnOffset where
  lines : Int
  columns : Int
deriving Repr, DecidableEq

/-- What a lookup returns. -/
structure Mapping where
  generated : LineColumnOffset
  original : LineColumnOffset
  sourceIndex : Int
  nameIndex : Int
deriving Repr, DecidableEq

/-- Names are not stored. -/
def State.toMapping (s : State) : Mapping where
  generated := ⟨s.generatedLine, s.generatedColumn⟩
  original := ⟨s.originalLine, s.originalColumn⟩
  sourceIndex := s.sourceIndex
  nameIndex := -1

/-- The mapping, if it lies on the line that was asked for. -/
def State.onLine (s : State) (line : Int) : Option Mapping :=
  if s.generatedLine ≠ line then none else some s.toMapping

/-- The last window that begins at or before the target.  Here and below the outer
`none` is a read past the end. -/
def locateWindow (blob : Blob) (line col : Int) : Option (Option Nat) := do
  let n ← blob.syncCount
  let lo ← partitionPoint
    (fun mid => (blob.syncEntry mid).map (·.lessOrEqual line col)) n 0 n
  return if lo = 0 then none else some (lo - 1)

/-- Step through a window while its mappings lie at or before the target. -/
def findLoop (bytes : List UInt8) (line col : Int) :
    Nat → WindowReader → State → Option State
  | 0, _, _ => none
  | fuel + 1, r, best =>
      if r.done then some best
      else do
        let (r, nxt) ← r.next bytes best
        if nxt.lessOrEqual line col then findLoop bytes line col fuel r nxt
        else return best

def find (blob : Blob) (line col : Int) : Option (Option Mapping) := do
  match ← locateWindow blob line col with
  | none => return none
  | some syncIdx =>
      let (state, r) ← seedWindow blob .dangling syncIdx
      let bytes ← blob.stream
      let best ← findLoop bytes line col syncInterval r state
      return best.onLine line

/-! ### The cache -/

/-- The address of a blob; a null pointer is `none`. -/
abbrev Addr := Nat

/-- A window's decoded prefix and a reader for the others. -/
structure FindCacheSlot where
  data : Option Addr
  syncIdx : Nat
  decoded : List State
  reader : WindowReader
deriving Inhabited

structure FindCacheKey where
  data : Option Addr
  syncIdx : Nat
deriving Repr, DecidableEq

def slotCount : Nat := 16

structure FindCache where
  keys : Fin slotCount → FindCacheKey
  slots : Fin slotCount → FindCacheSlot
  nextVictim : Fin slotCount

namespace FindCache

/-- `default()`. -/
def empty : FindCache where
  keys := fun _ => ⟨none, 0⟩
  slots := fun _ => ⟨none, 0, [], .dangling⟩
  nextVictim := ⟨0, by decide⟩

/-- Forget the slots of an address. -/
def invalidate (c : FindCache) (data : Addr) : FindCache :=
  { c with
    keys := fun i =>
      if (c.keys i).data = some data then { c.keys i with data := none } else c.keys i
    slots := fun i =>
      if (c.keys i).data = some data then { c.slots i with data := none } else c.slots i }

def invalidateAll (c : FindCache) : FindCache :=
  { c with
    keys := fun i => { c.keys i with data := none }
    slots := fun i => { c.slots i with data := none } }

/-- The slot of a key: the one that has it, else a free one, else the next victim. -/
def slotFor (c : FindCache) (data : Addr) (syncIdx : Nat) : Fin slotCount × FindCache :=
  match (List.finRange slotCount).find? fun i => c.keys i = ⟨some data, syncIdx⟩ with
  | some i => (i, c)
  | none =>
      match (List.finRange slotCount).find? fun i => (c.keys i).data = none with
      | some i => (i, { c with keys := Function.update c.keys i ⟨some data, syncIdx⟩ })
      | none =>
          (c.nextVictim,
            { c with
              keys := Function.update c.keys c.nextVictim ⟨some data, syncIdx⟩
              nextVictim :=
                ⟨(c.nextVictim + 1) % slotCount, Nat.mod_lt _ (by decide)⟩ })

end FindCache

/-- A slot for the window: as it is when it holds the window, else seeded anew. -/
def FindCacheSlot.seed (s : FindCacheSlot) (data : Addr) (blob : Blob) (syncIdx : Nat) :
    Option FindCacheSlot :=
  if s.data ≠ some data ∨ s.syncIdx ≠ syncIdx ∨ s.decoded = [] then do
    let (first, reader) ← seedWindow blob s.reader syncIdx
    return { data := some data, syncIdx := syncIdx, decoded := [first], reader := reader }
  else some s

/-- Decode on while the last mapping lies at or before the target; the array has room
for 64. -/
def FindCacheSlot.extend (bytes : List UInt8) (line col : Int) :
    Nat → FindCacheSlot → Option FindCacheSlot
  | 0, _ => none
  | fuel + 1, s =>
      match s.decoded.getLast? with
      | none => none
      | some state =>
          if s.reader.done ∨ ¬state.lessOrEqual line col then some s
          else do
            let (r, nxt) ← s.reader.next bytes state
            if s.decoded.length < syncInterval then
              extend bytes line col fuel
                { s with decoded := s.decoded ++ [nxt], reader := r }
            else none

/-- The last of the decoded mappings at or before the target. -/
def searchDecoded (decoded : List State) (line col : Int) : Option (Option Mapping) := do
  let lo ← partitionPoint (fun mid => (decoded[mid]?).map (·.lessOrEqual line col))
    decoded.length 0 decoded.length
  if lo = 0 then return none
  else
    let best ← decoded[lo - 1]?
    return best.onLine line

/-- Look up a position in the blob at `data`. -/
def findWithCache (data : Addr) (blob : Blob) (line col : Int) (set : FindCache) :
    Option (Option Mapping × FindCache) := do
  match ← locateWindow blob line col with
  | none => return (none, set)
  | some syncIdx =>
      let (i, set) := set.slotFor data syncIdx
      let slot ← (set.slots i).seed data blob syncIdx
      let bytes ← blob.stream
      let slot ← slot.extend bytes line col (syncInterval + 1)
      let found ← searchDecoded slot.decoded line col
      return (found, { set with slots := Function.update set.slots i slot })

/-! ### The cursor -/

/-- A forward cursor; `peek` is the mapping behind `state`, when it was read ahead. -/
structure Cursor where
  map : Blob
  state : State
  peek : Option State
  reader : WindowReader
  syncIdx : Nat
  hasState : Bool

namespace Cursor

def init (map : Blob) : Cursor where
  map := map
  state := .zero
  peek := none
  reader := .dangling
  syncIdx := 0
  hasState := false

/-- Seed the window the target lies in; the flag says whether there is one. -/
def reseek (c : Cursor) (line col : Int) : Option (Bool × Cursor) := do
  match ← locateWindow c.map line col with
  | none => return (false, { c with hasState := false })
  | some idx =>
      let (state, r) ← seedWindow c.map c.reader idx
      return (true, { c with
        syncIdx := idx, state := state, reader := r, peek := none, hasState := true })

/-- The next mapping, from the next window when this one is done. -/
def advanceOne (c : Cursor) : Option (Option State × Cursor) := do
  if c.reader.done then
    let n ← c.map.syncCount
    if n ≤ c.syncIdx + 1 then return (none, c)
    else
      let (seed, r) ← seedWindow c.map c.reader (c.syncIdx + 1)
      return (some seed, { c with syncIdx := c.syncIdx + 1, reader := r })
  else
    let bytes ← c.map.stream
    let (r, nxt) ← c.reader.next bytes (c.peek.getD c.state)
    return (some nxt, { c with reader := r })

/-- Move on while the next mapping lies at or before the target. -/
def forward (line col : Int) : Nat → Cursor → Option Cursor
  | 0, _ => none
  | fuel + 1, c =>
      if c.peek.any fun p => !p.lessOrEqual line col then some c
      else do
        let c := match c.peek with
          | some p => { c with state := p, peek := none }
          | none => c
        match ← c.advanceOne with
        | (none, c) => some c
        | (some nxt, c) =>
            if nxt.lessOrEqual line col then forward line col fuel { c with state := nxt }
            else some { c with peek := some nxt }

/-- The turns of `forward` are bounded by the mappings there are. -/
def fuel (c : Cursor) : Option Nat := do
  let n ← c.map.syncCount
  return syncInterval * n + 1

def moveTo (c : Cursor) (line col : Int) : Option (Option Mapping × Cursor) := do
  let (there, c) ←
    if !c.hasState || !c.state.lessOrEqual line col then c.reseek line col
    else some (true, c)
  if there then
    let c ← c.forward line col (← c.fuel)
    return (c.state.onLine line, c)
  else return (none, c)

end Cursor

end Bunx.SourceMap
