/-
Module: Bunx.Collections.LinearFifo
Purpose: The ring-buffer queue: its buffer, head and count, and the operations as the
  code computes them.
Trusted boundary: the allocator serves every request; fresh memory may hold anything.
Main exports:
  LinearFifoBufferType, LinearFifo, realign, shrink, ensureTotalCapacity, discard, read,
  write, unget, orderedRemoveItem, Op, Op.call
-/
import Mathlib.Algebra.Ring.Int.Defs
import Mathlib.Algebra.Ring.Nat
import Mathlib.Data.Nat.Log
import Bunx.Lib.Ring

namespace Bunx.Collections

open Lib

/-- `PAGE_SIZE_MIN`. -/
def pageSizeMin : Nat := 4096

inductive LinearFifoBufferType where
  | static (n : Nat)
  | slice
  | dynamic
deriving Repr, DecidableEq

namespace LinearFifoBufferType

/-- `usize::is_power_of_two`. -/
def isPowerOfTwo (n : Nat) : Bool := 2 ^ Nat.clog 2 n = n

/-- `POWERS_OF_TWO`. -/
def powersOfTwo : LinearFifoBufferType → Bool
  | static n => isPowerOfTwo n
  | slice => false
  | dynamic => true

/-- `DYNAMIC`. -/
def isDynamic : LinearFifoBufferType → Bool
  | dynamic => true
  | _ => false

end LinearFifoBufferType

/-- `usize::checked_next_power_of_two`. -/
def checkedNextPowerOfTwo (n : Nat) : Option Nat :=
  if 2 ^ Nat.clog 2 n < 2 ^ 64 then some (2 ^ Nat.clog 2 n) else none

structure LinearFifo (α : Type) where
  kind : LinearFifoBufferType
  buf : List α
  head : Nat
  count : Nat
deriving DecidableEq

/-- What `n` new slots hold. -/
abbrev Fresh (α : Type) := (n : Nat) → Vector α n

variable {α : Type}

/-- `&buf[start..stop]`; `none` is the panic. -/
def sliceOf (buf : List α) (start stop : Nat) : Option (List α) :=
  if start ≤ stop ∧ stop ≤ buf.length then some ((buf.drop start).take (stop - start))
  else none

/-- Move `slice[1..]` down by one slot. -/
def shiftDownOne (slice : List α) : List α :=
  if slice.length ≤ 1 then slice else slice.drop 1 ++ slice.drop (slice.length - 1)

namespace LinearFifo

/-- `init` for the three kinds of buffer. -/
def initStatic {n : Nat} (memory : Vector α n) : LinearFifo α where
  kind := .static n
  buf := memory.toList
  head := 0
  count := 0

def initSlice (buf : List α) : LinearFifo α where
  kind := .slice
  buf := buf
  head := 0
  count := 0

def initDynamic : LinearFifo α where
  kind := .dynamic
  buf := []
  head := 0
  count := 0

def bufLen (s : LinearFifo α) : Nat := s.buf.length

def writableLength (s : LinearFifo α) : Nat := s.bufLen - s.count

/-- An index into the buffer: masked where the capacity is taken to be a power of two,
else modulo the capacity; `none` is the panic of a division by zero.  The mask of an
empty buffer is all ones. -/
def wrapIndex (s : LinearFifo α) (i : Nat) : Option Nat :=
  if s.kind.powersOfTwo then
    some (i &&& (if s.bufLen = 0 then 2 ^ 64 - 1 else s.bufLen - 1))
  else if s.bufLen = 0 then none
  else some (i % s.bufLen)

/-- The wrapped case of `realign`: the buffer is rotated through the scratch area, as
many items at a time as fit; `fuel` bounds the turns. -/
def realignLoop (tmpLen : Nat) : Nat → LinearFifo α → Option (LinearFifo α)
  | 0, _ => none
  | fuel + 1, s =>
      if s.head = 0 then some s
      else
        let n := min s.head tmpLen
        realignLoop tmpLen fuel
          { s with buf := s.buf.drop n ++ s.buf.take n, head := s.head - n }

/-- Move the items to the front; `itemSize` is `size_of::<T>()`. -/
def realign (itemSize : Nat) (s : LinearFifo α) : Option (LinearFifo α) :=
  if s.count ≤ s.bufLen - s.head then
    some { s with
      buf := overwrite s.buf 0 ((s.buf.drop s.head).take s.count)
      head := 0 }
  else s.realignLoop (pageSizeMin / 2 / itemSize) (s.head + 1)

def shrink (fresh : Fresh α) (itemSize : Nat) (s : LinearFifo α) (size : Nat) :
    Option (LinearFifo α) :=
  if s.kind.isDynamic then do
    let s ← s.realign itemSize
    return { s with buf := overwrite (fresh size).toList 0 (s.buf.take (min s.bufLen size)) }
  else some s

/-- The flag is false where the result is `Err(AllocError)`. -/
def ensureTotalCapacity (fresh : Fresh α) (itemSize : Nat) (s : LinearFifo α)
    (size : Nat) : Option (Bool × LinearFifo α) :=
  if size ≤ s.bufLen then some (true, s)
  else if s.kind.isDynamic then do
    let s ← s.realign itemSize
    let newSize := if s.kind.powersOfTwo then checkedNextPowerOfTwo size else some size
    match newSize with
    | none => return (false, s)
    | some newSize =>
        return (true, { s with
          buf := overwrite (fresh newSize).toList 0 (s.buf.take s.count)
          head := 0 })
  else some (false, s)

def ensureUnusedCapacity (fresh : Fresh α) (itemSize : Nat) (s : LinearFifo α)
    (size : Nat) : Option (Bool × LinearFifo α) :=
  if size ≤ s.writableLength then some (true, s)
  else if s.count + size < 2 ^ 64 then
    s.ensureTotalCapacity fresh itemSize (s.count + size)
  else some (false, s)

/-- Where `readable_slice` begins and ends. -/
def readableRange (s : LinearFifo α) (offset : Nat) : Nat × Nat :=
  if s.count < offset then (0, 0)
  else
    let start := s.head + offset
    if s.bufLen ≤ start then
      (start - s.bufLen, start - s.bufLen + (s.count - offset))
    else (start, min (s.head + s.count) s.bufLen)

def readableSlice (s : LinearFifo α) (offset : Nat) : Option (List α) :=
  sliceOf s.buf (s.readableRange offset).1 (s.readableRange offset).2

def discard (s : LinearFifo α) (count : Nat) : Option (LinearFifo α) := do
  let head ← s.wrapIndex (s.head + count)
  return { s with head := head, count := s.count - count }

def readItem (s : LinearFifo α) : Option (Option α × LinearFifo α) :=
  if s.count = 0 then some (none, s)
  else do
    let c ← s.buf[s.head]?
    let s ← s.discard 1
    return (some c, s)

/-- The loop of `read` while `left` slots of `dst` are free. -/
def readLoop : Nat → Nat → LinearFifo α → Option (List α × LinearFifo α)
  | 0, _, _ => none
  | fuel + 1, left, s =>
      if left = 0 then some ([], s)
      else do
        let slice ← s.readableSlice 0
        if slice.length = 0 then return ([], s)
        else
          let n := min slice.length left
          let s ← s.discard n
          let (more, s) ← readLoop fuel (left - n) s
          return (slice.take n ++ more, s)

/-- `read` into a slice of `n` slots: the items copied. -/
def read (s : LinearFifo α) (n : Nat) : Option (List α × LinearFifo α) :=
  s.readLoop (n + 1) n

/-- Where `writable_slice(0)` begins and ends. -/
def writableRange (s : LinearFifo α) : Nat × Nat :=
  let tail := s.head + s.count
  if tail < s.bufLen then (tail, s.bufLen)
  else (tail - s.bufLen, tail - s.bufLen + s.writableLength)

/-- The loop of `write_assume_capacity`. -/
def writeAssumeCapacity : Nat → List α → LinearFifo α → Option (LinearFifo α)
  | 0, _, _ => none
  | fuel + 1, src, s =>
      if src.length = 0 then some s
      else do
        let (start, stop) := s.writableRange
        let slice ← sliceOf s.buf start stop
        let n := min slice.length src.length
        writeAssumeCapacity fuel (src.drop n)
          { s with
            buf := overwrite s.buf start (src.take n)
            count := s.count + n }

def writeItemAssumeCapacity (s : LinearFifo α) (item : α) : Option (LinearFifo α) := do
  let tail ← s.wrapIndex (s.head + s.count)
  return { s with buf := s.buf.set tail item, count := s.count + 1 }

def writeItem (fresh : Fresh α) (itemSize : Nat) (s : LinearFifo α) (item : α) :
    Option (Bool × LinearFifo α) := do
  let (ok, s) ← s.ensureUnusedCapacity fresh itemSize 1
  if ok then
    let s ← s.writeItemAssumeCapacity item
    return (true, s)
  else return (false, s)

def write (fresh : Fresh α) (itemSize : Nat) (s : LinearFifo α) (src : List α) :
    Option (Bool × LinearFifo α) := do
  let (ok, s) ← s.ensureUnusedCapacity fresh itemSize src.length
  if ok then
    let s ← s.writeAssumeCapacity (src.length + 1) src
    return (true, s)
  else return (false, s)

/-- Make `count` items available before the current read location. -/
def rewind (s : LinearFifo α) (count : Nat) : Option (LinearFifo α) := do
  let head ← s.wrapIndex (s.head + (s.bufLen - count))
  return { s with head := head, count := s.count + count }

/-- The copies of `unget`: over the first readable slice, and what is left of `src`
over the second. -/
def copyToReadable (s : LinearFifo α) (src : List α) : Option (LinearFifo α) := do
  let slice ← s.readableSlice 0
  let s := { s with
    buf := overwrite s.buf (s.readableRange 0).1 (src.take (min slice.length src.length)) }
  if slice.length < src.length then
    let slice2 ← s.readableSlice slice.length
    if src.length - slice.length ≤ slice2.length then
      return { s with
        buf := overwrite s.buf (s.readableRange slice.length).1 (src.drop slice.length) }
    else none
  else return s

def unget (fresh : Fresh α) (itemSize : Nat) (s : LinearFifo α) (src : List α) :
    Option (Bool × LinearFifo α) := do
  let (ok, s) ← s.ensureUnusedCapacity fresh itemSize src.length
  if ok then
    let s ← s.rewind src.length
    let s ← s.copyToReadable src
    return (true, s)
  else return (false, s)

def orderedRemoveItem (s : LinearFifo α) (offset : Nat) : Option (LinearFifo α) :=
  if offset = 0 then s.discard 1
  else if s.count ≤ s.bufLen - s.head then
    let i := s.head + offset
    some { s with buf := s.buf.take i ++ shiftDownOne (s.buf.drop i), count := s.count - 1 }
  else do
    let index ← s.wrapIndex (s.head + offset)
    let wrapLen := s.head + s.count - s.bufLen
    if index < s.head then
      let slice ← sliceOf s.buf index wrapLen
      return { s with buf := overwrite s.buf index (shiftDownOne slice), count := s.count - 1 }
    else
      let wrap ← s.buf[0]?
      let buf := s.buf.take index ++ shiftDownOne (s.buf.drop index)
      let buf := buf.set (s.bufLen - 1) wrap
      return { s with
        buf := overwrite buf 0 (shiftDownOne (buf.take wrapLen))
        count := s.count - 1 }

end LinearFifo

/-! ### Calls -/

/-- A call on a queue. -/
inductive Op (α : Type) where
  | write (src : List α)
  | writeItem (item : α)
  | read (n : Nat)
  | readItem
  | discard (n : Nat)
  | unget (src : List α)
  | rewind (n : Nat)
  | orderedRemoveItem (offset : Nat)
  | realign
  | ensureTotalCapacity (n : Nat)
  | ensureUnusedCapacity (n : Nat)
  | shrink (n : Nat)

/-- The queue after a call, the items it gave out and whether it succeeded. -/
structure Outcome (α : Type) where
  fifo : LinearFifo α
  items : List α
  ok : Bool
deriving DecidableEq

/-- A call; `none` when it panics or does not end. -/
def Op.call (fresh : Fresh α) (itemSize : Nat) (s : LinearFifo α) :
    Op α → Option (Outcome α)
  | .write src => (s.write fresh itemSize src).map fun r => ⟨r.2, [], r.1⟩
  | .writeItem item => (s.writeItem fresh itemSize item).map fun r => ⟨r.2, [], r.1⟩
  | .read n => (s.read n).map fun r => ⟨r.2, r.1, true⟩
  | .readItem => s.readItem.map fun r => ⟨r.2, r.1.toList, true⟩
  | .discard n => (s.discard n).map fun s => ⟨s, [], true⟩
  | .unget src => (s.unget fresh itemSize src).map fun r => ⟨r.2, [], r.1⟩
  | .rewind n => (s.rewind n).map fun s => ⟨s, [], true⟩
  | .orderedRemoveItem offset => (s.orderedRemoveItem offset).map fun s => ⟨s, [], true⟩
  | .realign => (s.realign itemSize).map fun s => ⟨s, [], true⟩
  | .ensureTotalCapacity n =>
      (s.ensureTotalCapacity fresh itemSize n).map fun r => ⟨r.2, [], r.1⟩
  | .ensureUnusedCapacity n =>
      (s.ensureUnusedCapacity fresh itemSize n).map fun r => ⟨r.2, [], r.1⟩
  | .shrink n => (s.shrink fresh itemSize n).map fun s => ⟨s, [], true⟩

end Bunx.Collections
