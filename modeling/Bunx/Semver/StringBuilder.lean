/-
Module: Bunx.Semver.StringBuilder
Purpose: The builder that counts strings, allocates once and interns them, and what the
  strings it hands out read.
Trusted boundary: the allocator serves a request below `isize::MAX` with zeroed memory.
Main exports: Builder, Builder.intern, counted, pooled, Copied, stored
-/
import Bunx.Lib.Ring
import Bunx.Semver.SemverString

namespace Bunx.Semver

open Lib

structure StringPool where
  map : UInt64 → Option SemverString := fun _ => none

namespace StringPool

def contains (pool : StringPool) (hash : UInt64) : Bool := (pool.map hash).isSome

/-- What `get_or_put` leaves behind for a hash it did not find. -/
def put (pool : StringPool) (hash : UInt64) (value : SemverString) : StringPool where
  map key := if key = hash then some value else pool.map key

end StringPool

structure Builder where
  len : Nat := 0
  cap : Nat := 0
  ptr : Option Slice := none
  stringPool : StringPool := {}

/-- Where an empty slice points. -/
def danglingAddr : Nat := 1

namespace Builder

def countWithHash (b : Builder) (slice_ : Bytes) (hash : UInt64) : Builder :=
  if slice_.length ≤ maxInlineLen then b
  else if b.stringPool.contains hash then b
  else { b with cap := (b.cap + slice_.length) % 2 ^ 64 }

def count (stringHash : Bytes → UInt64) (b : Builder) (slice_ : Bytes) : Builder :=
  b.countWithHash slice_
    (if slice_.length ≥ maxInlineLen then stringHash slice_ else UInt64.ofNat (2 ^ 64 - 1))

/-- `none` where `allocate` has not run. -/
def allocatedSlice (b : Builder) : Option Slice :=
  if b.cap > 0 then do
    let ptr ← b.ptr
    ptr.range 0 b.cap
  else some ⟨danglingAddr, []⟩

/-- The box is at `addr`; `vec!` panics over `isize::MAX`. -/
def allocate (b : Builder) (addr : Nat) : Option Builder :=
  if b.cap < 2 ^ 63 then some { b with ptr := some ⟨addr, List.replicate b.cap 0⟩ }
  else none

/-- Copy the bytes behind the others and make a string of the copy; `none` is the panic of
a range that leaves the buffer. -/
def copyIn (b : Builder) (slice_ : Bytes) : Option (Builder × SemverString) := do
  let ptr ← b.ptr
  let dst ← ptr.range b.len b.cap
  if slice_.length ≤ dst.bytes.length then
    let written : Slice := { ptr with bytes := overwrite ptr.bytes b.len slice_ }
    let allocated ← written.range 0 b.cap
    let finalSlice ← allocated.range b.len (b.len + slice_.length)
    return ({ b with ptr := some written, len := b.len + slice_.length },
      SemverString.init allocated finalSlice)
  else none

def appendWithoutPool (b : Builder) (slice_ : Slice) : Option (Builder × SemverString) :=
  if slice_.bytes.length ≤ maxInlineLen then do
    let allocated ← b.allocatedSlice
    return (b, SemverString.init allocated slice_)
  else b.copyIn slice_.bytes

def appendWithHash (b : Builder) (slice_ : Slice) (hash : UInt64) :
    Option (Builder × SemverString) :=
  if slice_.bytes.length ≤ maxInlineLen then do
    let allocated ← b.allocatedSlice
    return (b, SemverString.init allocated slice_)
  else
    match b.stringPool.map hash with
    | some value => do
        let ptr ← b.ptr
        let allocated ← ptr.range 0 b.cap
        -- another text has the hash
        if value.slice allocated.bytes ≠ slice_.bytes then b.appendWithoutPool slice_
        else return (b, value)
    | none => do
        let (b, value) ← b.copyIn slice_.bytes
        return ({ b with stringPool := b.stringPool.put hash value }, value)

def append (stringHash : Bytes → UInt64) (b : Builder) (slice_ : Slice) :
    Option (Builder × SemverString) :=
  b.appendWithHash slice_ (stringHash slice_.bytes)

def appendAll (stringHash : Bytes → UInt64) :
    Builder → List Slice → Option (Builder × List SemverString)
  | b, [] => some (b, [])
  | b, slice_ :: rest => do
      let (b, value) ← b.append stringHash slice_
      let (b, values) ← b.appendAll stringHash rest
      return (b, value :: values)

/-- Count all, allocate, append all: the final buffer and the strings. -/
def intern (stringHash : Bytes → UInt64) (addr : Nat) (slices : List Slice) :
    Option (Bytes × List SemverString) := do
  let b ← ((slices.map Slice.bytes).foldl (count stringHash) {}).allocate addr
  let (b, values) ← b.appendAll stringHash slices
  let ptr ← b.ptr
  return (ptr.bytes, values)

end Builder

/-! ### What the buffer is for -/

/-- The bytes `count` asks for. -/
def counted (texts : List Bytes) : Nat :=
  ((texts.map List.length).filter (maxInlineLen < ·)).sum

section

variable (stringHash : Bytes → UInt64)

/-- The text the pool answers a hash with: the first one with that hash among those too
long to be inline. -/
def pooled (before : List Bytes) (hash : UInt64) : Option Bytes :=
  before.find? fun text => maxInlineLen < text.length && stringHash text = hash

/-- A text that is copied into the buffer, and not read from the pool or held inline. -/
def Copied (before : List Bytes) (text : Bytes) : Prop :=
  maxInlineLen < text.length ∧ pooled stringHash before (stringHash text) ≠ some text

instance (before : List Bytes) (text : Bytes) :
    Decidable (Copied stringHash before text) :=
  inferInstanceAs (Decidable (_ ∧ _))

/-- The bytes that texts add to a buffer that holds those of `before`. -/
def storedAfter : List Bytes → List Bytes → Bytes
  | _, [] => []
  | before, text :: rest =>
      (if Copied stringHash before text then text else []) ++
        storedAfter (before ++ [text]) rest

/-- The bytes in the buffer after texts. -/
def stored (texts : List Bytes) : Bytes := storedAfter stringHash [] texts

end

end Bunx.Semver
