/-
Module: Bunx.SourceMap.Reader
Purpose: Reading a blob: its header, the sync entries, and the windows one mapping
  after the other.  Every read past the end of the bytes is `none`.
Trusted boundary: none
Main exports:
  Blob, syncCount, syncEntry, stream, WindowReader, WindowReader.parse,
  WindowReader.done, WindowReader.next, seedWindow, decodeWindow, decode
-/
import Bunx.SourceMap.Builder

namespace Bunx.SourceMap

open Lib

/-- The bytes an `InternalSourceMap` points to. -/
abbrev Blob := List UInt8

namespace Blob

def totalLen (blob : Blob) : Option Nat := readLe blob 0 8

def mappingCount (blob : Blob) : Option Nat := readLe blob 8 8

def inputLineCount (blob : Blob) : Option Nat := readLe blob 16 8

def syncCount (blob : Blob) : Option Nat := readLe blob 24 4

def streamOffset (blob : Blob) : Option Nat := readLe blob 28 4

def syncEntry (blob : Blob) (index : Nat) : Option SyncEntry := do
  let off := headerSize + index * 24
  let generatedLine ← readLe blob off 4
  let generatedColumn ← readLe blob (off + 4) 4
  let byteOffset ← readLe blob (off + 8) 4
  let originalLine ← readLe blob (off + 12) 4
  let originalColumn ← readLe blob (off + 16) 4
  let sourceIndex ← readLe blob (off + 20) 4
  return {
    generatedLine := asI32 generatedLine
    generatedColumn := asI32 generatedColumn
    byteOffset := byteOffset
    originalLine := asI32 originalLine
    originalColumn := asI32 originalColumn
    sourceIndex := asI32 sourceIndex }

/-- From the stream offset to `total_len`; `none` when that leaves the blob. -/
def stream (blob : Blob) : Option (List UInt8) := do
  let offset ← blob.streamOffset
  let total ← blob.totalLen
  if offset ≤ total ∧ total ≤ blob.length then
    return (blob.drop offset).take (total - offset)
  else none

end Blob

/-- A reader of one window; positions are relative to the stream. -/
structure WindowReader where
  base : Nat
  genColPos : Nat
  origLineExcPos : Nat
  origColExcPos : Nat
  genLineExcPos : Nat
  srcIdxMask : Nat
  srcIdxExcPos : Nat
  count : Nat
  flags : UInt8
  genLineExcNextIdx : Nat
  deltaIdx : Nat
deriving Repr, DecidableEq, Inhabited

namespace WindowReader

/-- `DANGLING`. -/
def dangling : WindowReader := ⟨0, 0, 0, 0, 0, 0, 0, 0, 0, 0, 0⟩

/-- The loop of `parse` over the line exceptions; `fuel` bounds the turns. -/
def skipGenLineExc (bytes : List UInt8) : Nat → Nat → Option Nat
  | 0, _ => none
  | fuel + 1, pos =>
      match bytes[pos]? with
      | none => some pos
      | some b =>
          if b = 0xFF then some pos
          else do
            let (_, pos) ← readVarint bytes (pos + 1)
            skipGenLineExc bytes fuel pos

/-- Where the line exceptions begin and end, when the window has any. -/
def parseGenLineExc (bytes : List UInt8) (r : WindowReader) (pos : Nat) :
    Option (WindowReader × Nat) :=
  if r.flags &&& flagHasGenLineExceptions ≠ 0 then
    match bytes[pos]? with
    | none => some (r, pos)
    | some b => do
        let behind ← skipGenLineExc bytes (bytes.length + 1) pos
        some ({ r with genLineExcPos := pos, genLineExcNextIdx := b.toNat }, behind + 1)
  else some (r, pos)

/-- Read the header of the window at `start`. -/
def parse (r : WindowReader) (bytes : List UInt8) (start : Nat) : Option WindowReader := do
  let count ← bytes[start]?
  let flags ← bytes[start + 1]?
  let genColLen ← readLe bytes (start + 2) 2
  let origLineLen ← readLe bytes (start + 4) 2
  let origColLen ← readLe bytes (start + 6) 2
  let genColPos := start + 32
  let origLineExcPos := genColPos + genColLen
  let origColExcPos := origLineExcPos + origLineLen
  let pos := origColExcPos + origColLen
  let r := { r with
    base := start
    count := min count.toNat syncInterval
    flags := flags
    deltaIdx := 0
    genColPos := genColPos
    origLineExcPos := origLineExcPos
    origColExcPos := origColExcPos
    genLineExcNextIdx := 0xFF }
  let (r, pos) ← parseGenLineExc bytes r pos
  if flags &&& flagHasSrcIdx ≠ 0 then
    return { r with srcIdxMask := pos, srcIdxExcPos := pos + 8 }
  else return r

def done (r : WindowReader) : Bool := decide (r.count ≤ r.deltaIdx + 1)

/-- The given value where a mask bit is set, else the next varint. -/
def readUnless (bytes : List UInt8) (equal : Bool) (value : Int) (pos : Nat) :
    Option (Int × Nat) :=
  if equal then some (value, pos) else readVarint bytes pos

/-- The line exception of this delta, if the next one is. -/
def nextGenLineExc (bytes : List UInt8) (r : WindowReader) (deltaIdx : Nat)
    (dGenLine dOrigLine : Int) : Option (WindowReader × Int × Int) :=
  if r.genLineExcNextIdx = deltaIdx then do
    let (dGenLine, p) ← readVarint bytes (r.genLineExcPos + 1)
    let lineEq ← bitAt bytes (r.base + 16) deltaIdx
    let nextIdx ← bytes[p]?
    some ({ r with genLineExcPos := p, genLineExcNextIdx := nextIdx.toNat },
      dGenLine, if lineEq then dGenLine else dOrigLine)
  else some (r, dGenLine, dOrigLine)

/-- The source index of this delta. -/
def nextSrcIdx (bytes : List UInt8) (r : WindowReader) (deltaIdx : Nat) (state : State) :
    Option (WindowReader × State) :=
  if r.flags &&& flagHasSrcIdx ≠ 0 then do
    let zero ← bitAt bytes r.srcIdxMask deltaIdx
    if zero then some (r, state)
    else do
      let (d, pos) ← readVarint bytes r.srcIdxExcPos
      some ({ r with srcIdxExcPos := pos },
        { state with sourceIndex := wrap (state.sourceIndex + d) })
  else some (r, state)

def nextRare (bytes : List UInt8) (r : WindowReader) (deltaIdx : Nat)
    (dGenLine dOrigLine : Int) (state : State) :
    Option (WindowReader × Int × Int × State) := do
  let (r, dGenLine, dOrigLine) ← nextGenLineExc bytes r deltaIdx dGenLine dOrigLine
  let (r, state) ← nextSrcIdx bytes r deltaIdx state
  some (r, dGenLine, dOrigLine, state)

/-- `next_rare` where the window has flags. -/
def nextIfRare (bytes : List UInt8) (r : WindowReader) (deltaIdx : Nat)
    (dGenLine dOrigLine : Int) (state : State) :
    Option (WindowReader × Int × Int × State) :=
  if r.flags ≠ 0 then nextRare bytes r deltaIdx dGenLine dOrigLine state
  else some (r, dGenLine, dOrigLine, state)

/-- Move the position by the differences of a delta. -/
def advance (state : State) (dGenLine dGenCol dOrigLine dOrigCol : Int) : State :=
  { state with
    generatedLine :=
      if dGenLine ≠ 0 then wrap (state.generatedLine + dGenLine)
      else state.generatedLine
    generatedColumn :=
      if dGenLine ≠ 0 then dGenCol else wrap (state.generatedColumn + dGenCol)
    originalLine := wrap (state.originalLine + dOrigLine)
    originalColumn := wrap (state.originalColumn + dOrigCol) }

/-- The mapping behind `state`. -/
def next (bytes : List UInt8) (r : WindowReader) (state : State) :
    Option (WindowReader × State) := do
  let deltaIdx := r.deltaIdx
  let genLineBit ← bitAt bytes (r.base + 8) deltaIdx
  let dGenLine : Int := if genLineBit then 1 else 0
  let (dGenCol, genColPos) ← readVarint bytes r.genColPos
  let origLineEq ← bitAt bytes (r.base + 16) deltaIdx
  let (dOrigLine, origLineExcPos) ←
    readUnless bytes origLineEq dGenLine r.origLineExcPos
  let origColEq ← bitAt bytes (r.base + 24) deltaIdx
  let (dOrigCol, origColExcPos) ← readUnless bytes origColEq dGenCol r.origColExcPos
  let r := { r with
    deltaIdx := deltaIdx + 1
    genColPos := genColPos
    origLineExcPos := origLineExcPos
    origColExcPos := origColExcPos }
  let (r, dGenLine, dOrigLine, state) ←
    nextIfRare bytes r deltaIdx dGenLine dOrigLine state
  return (r, advance state dGenLine dGenCol dOrigLine dOrigCol)

/-- `next` until the window is done; `fuel` bounds the turns. -/
def rest (bytes : List UInt8) : Nat → WindowReader → State → Option (List State)
  | 0, _, _ => none
  | fuel + 1, r, state =>
      if r.done then some []
      else do
        let (r, state) ← r.next bytes state
        let more ← rest bytes fuel r state
        return state :: more

end WindowReader

/-- The first mapping of a window and a reader of the others. -/
def seedWindow (blob : Blob) (r : WindowReader) (syncIdx : Nat) :
    Option (State × WindowReader) := do
  let entry ← blob.syncEntry syncIdx
  let bytes ← blob.stream
  let r ← r.parse bytes entry.byteOffset
  return (entry.toState, r)

/-- All mappings of a window. -/
def decodeWindow (blob : Blob) (syncIdx : Nat) : Option (List State) := do
  let (state, r) ← seedWindow blob .dangling syncIdx
  let bytes ← blob.stream
  let more ← r.rest bytes syncInterval state
  return state :: more

/-- All mappings of a blob, window by window. -/
def decode (blob : Blob) : Option (List State) := do
  let n ← blob.syncCount
  let windows ← (List.range n).mapM (decodeWindow blob)
  return windows.flatten

end Bunx.SourceMap
