/-
Module: Bunx.SourceMap.Builder
Purpose: Mappings, the deltas of a window, and the builder that packs windows of
  64 mappings into the blob of an InternalSourceMap.
Trusted boundary: the spare capacity a window is written to may hold any bytes.
Main exports:
  State, Delta, SyncEntry, Builder, Builder.appendLineSeparator,
  Builder.appendMapping, Builder.flushWindow, Builder.finalize, fillHeader
-/
import Mathlib.Logic.Function.Basic
import Bunx.Lib.Bits
import Bunx.SourceMap.Varint

namespace Bunx.SourceMap

open Lib

def syncInterval : Nat := 64

def headerSize : Nat := 32

def streamTailPad : Nat := 1

/-- One mapping, all fields `i32`. -/
structure State where
  generatedLine : Int
  generatedColumn : Int
  sourceIndex : Int
  originalLine : Int
  originalColumn : Int
deriving Repr, DecidableEq, Inhabited

/-- `State::default()`. -/
def State.zero : State := ⟨0, 0, 0, 0, 0⟩

/-- The running state of an encoder: the same five fields. -/
abbrev SourceMapState := State

/-- The mapping stands at or before a position. -/
def State.lessOrEqual (s : State) (line col : Int) : Bool :=
  decide (s.generatedLine < line) ||
    (decide (s.generatedLine = line) && decide (s.generatedColumn ≤ col))

/-- What a window stores of a mapping after its first. -/
structure Delta where
  genLine : Int
  genCol : Int
  origLine : Int
  origCol : Int
  srcIdx : Int
deriving Repr, DecidableEq

/-- The differences `flush_window` takes; on a new line the column is absolute. -/
def Delta.between (prev cur : State) : Delta :=
  let dGenLine := wrap (cur.generatedLine - prev.generatedLine)
  { genLine := dGenLine
    genCol :=
      if dGenLine ≠ 0 then cur.generatedColumn
      else wrap (cur.generatedColumn - prev.generatedColumn)
    origLine := wrap (cur.originalLine - prev.originalLine)
    origCol := wrap (cur.originalColumn - prev.originalColumn)
    srcIdx := wrap (cur.sourceIndex - prev.sourceIndex) }

/-- The deltas of the mappings behind `prev`. -/
def deltas : State → List State → List Delta
  | _, [] => []
  | prev, cur :: rest => Delta.between prev cur :: deltas cur rest

/-- The absolute state of a window's first mapping and where the window begins. -/
structure SyncEntry where
  generatedLine : Int
  generatedColumn : Int
  byteOffset : Nat
  originalLine : Int
  originalColumn : Int
  sourceIndex : Int
deriving Repr, DecidableEq

def SyncEntry.lessOrEqual (e : SyncEntry) (line col : Int) : Bool :=
  decide (e.generatedLine < line) ||
    (decide (e.generatedLine = line) && decide (e.generatedColumn ≤ col))

def SyncEntry.toState (e : SyncEntry) : State where
  generatedLine := e.generatedLine
  generatedColumn := e.generatedColumn
  sourceIndex := e.sourceIndex
  originalLine := e.originalLine
  originalColumn := e.originalColumn

/-! ### Writing a window -/

/-- Whether the line difference does not fit the mask bit. -/
def Delta.lineException (d : Delta) : Bool := decide (d.genLine > 1 ∨ d.genLine < 0)

def flagHasGenLineExceptions : UInt8 := 4

def flagHasSrcIdx : UInt8 := 8

/-- The variable sections of a window. -/
inductive Lane where
  | genCol
  | origLine
  | origCol
  | genLine
  | srcIdx
deriving Repr, DecidableEq

/-- The bit masks of a window. -/
inductive Mask where
  | genLine
  | origLineEq
  | origColEq
  | srcIdx
deriving Repr, DecidableEq

/-- Where the eight mask bytes of the source indices are written. -/
def srcIdxBase (nDeltas : Nat) : Nat :=
  32 + 3 * (nDeltas * maxVarintLen) + nDeltas * (1 + maxVarintLen) + 1

/-- The sub-range of the spare buffer a section is written to. -/
def Lane.base (nDeltas : Nat) : Lane → Nat
  | .genCol => 32
  | .origLine => 32 + nDeltas * maxVarintLen
  | .origCol => 32 + 2 * (nDeltas * maxVarintLen)
  | .genLine => 32 + 3 * (nDeltas * maxVarintLen)
  | .srcIdx => srcIdxBase nDeltas + 8

def Mask.base (nDeltas : Nat) : Mask → Nat
  | .genLine => 8
  | .origLineEq => 16
  | .origColEq => 24
  | .srcIdx => srcIdxBase nDeltas

/-- The spare buffer, the flags so far and a cursor for each section. -/
structure Emit where
  buf : Mem
  flags : UInt8
  w : Lane → Nat

namespace Emit

/-- Write bytes at a section's cursor and move it. -/
def put (s : Emit) (lane : Lane) (bytes : List UInt8) : Emit :=
  { s with
    buf := s.buf.write (s.w lane) bytes
    w := Function.update s.w lane (s.w lane + bytes.length) }

def orFlags (s : Emit) (flag : UInt8) : Emit := { s with flags := s.flags ||| flag }

def orBit (s : Emit) (nDeltas : Nat) (mask : Mask) (k : Nat) : Emit :=
  { s with buf := s.buf.orBit (mask.base nDeltas) k }

/-- One turn of the loop over the deltas. -/
def delta (nDeltas k : Nat) (d : Delta) (s : Emit) : Emit :=
  let s := if 1 ≤ d.genLine then s.orBit nDeltas .genLine k else s
  let s := s.put .genCol (writeVarint d.genCol)
  let s :=
    if d.origLine = d.genLine then s.orBit nDeltas .origLineEq k
    else s.put .origLine (writeVarint d.origLine)
  let s :=
    if d.origCol = d.genCol then s.orBit nDeltas .origColEq k
    else s.put .origCol (writeVarint d.origCol)
  let s :=
    if d.lineException then
      ((s.orFlags flagHasGenLineExceptions).put .genLine [UInt8.ofNat k]).put
        .genLine (writeVarint d.genLine)
    else s
  if d.srcIdx = 0 then s.orBit nDeltas .srcIdx k
  else (s.orFlags flagHasSrcIdx).put .srcIdx (writeVarint d.srcIdx)

def loop (nDeltas : Nat) : Nat → List Delta → Emit → Emit
  | _, [], s => s
  | k, d :: ds, s => loop nDeltas (k + 1) ds (delta nDeltas k d s)

/-- The buffer with its header zeroed and the count written, cursors at the bases. -/
def start (spare : Mem) (nDeltas : Nat) : Emit where
  buf := ((spare.write 0 (List.replicate 32 0)).write 0 [UInt8.ofNat (nDeltas + 1)]).write
    (srcIdxBase nDeltas) (List.replicate 8 0)
  flags := 0
  w := Lane.base nDeltas

/-- The `0xFF` behind the line exceptions, when there are any. -/
def terminate (s : Emit) : Emit :=
  if s.flags &&& flagHasGenLineExceptions ≠ 0 then s.put .genLine [0xFF] else s

/-- How much of a section was written. -/
def len (nDeltas : Nat) (s : Emit) (lane : Lane) : Nat := s.w lane - lane.base nDeltas

/-- The flags and the three section lengths go into the header. -/
def header (nDeltas : Nat) (s : Emit) : Mem :=
  (((s.buf.write 1 [s.flags]).write 2 (leBytes 2 (s.len nDeltas .genCol))).write 4
    (leBytes 2 (s.len nDeltas .origLine))).write 6 (leBytes 2 (s.len nDeltas .origCol))

/-- The sections that are moved left, in layout order. -/
def runs (nDeltas : Nat) (s : Emit) : List (Nat × Nat) :=
  [(Lane.base nDeltas .origLine, s.len nDeltas .origLine),
   (Lane.base nDeltas .origCol, s.len nDeltas .origCol),
   (Lane.base nDeltas .genLine, s.len nDeltas .genLine),
   (srcIdxBase nDeltas,
     if s.flags &&& flagHasSrcIdx ≠ 0 then 8 + s.len nDeltas .srcIdx else 0)]

end Emit

/-- The bytes `flush_window` commits for the deltas of a window. -/
def writeWindow (spare : Mem) (ds : List Delta) : List UInt8 :=
  let n := ds.length
  let s := (Emit.loop n 0 ds (Emit.start spare n)).terminate
  let (buf, w) := (s.header n).compact (32 + s.len n .genCol) (s.runs n)
  buf.slice w

/-! ### The builder -/

/-- A builder between two calls: fewer mappings are pending than fill a window. -/
structure Builder where
  generatedLine : Int
  pendingGeneratedLineDelta : Int
  count : Nat
  pending : List State
  syncEntries : List SyncEntry
  winStream : List UInt8
  pendingFits : pending.length < syncInterval

/-- What the spare capacity holds when a stream of some length grows. -/
abbrev Spare := Nat → Mem

namespace Builder

def init : Builder where
  generatedLine := 0
  pendingGeneratedLineDelta := 0
  count := 0
  pending := []
  syncEntries := []
  winStream := []
  pendingFits := by decide

def appendLineSeparator (b : Builder) : Builder :=
  { b with pendingGeneratedLineDelta := wrap (b.pendingGeneratedLineDelta + 1) }

/-- Flush `first :: rest`; `byte_offset` is cut to 32 bits. -/
def flush (spare : Spare) (b : Builder) (first : State) (rest : List State) : Builder :=
  { b with
    syncEntries := b.syncEntries ++
      [{ generatedLine := first.generatedLine
         generatedColumn := first.generatedColumn
         byteOffset := b.winStream.length % 2 ^ 32
         originalLine := first.originalLine
         originalColumn := first.originalColumn
         sourceIndex := first.sourceIndex }]
    winStream := b.winStream ++ writeWindow (spare b.winStream.length) (deltas first rest)
    pending := []
    pendingFits := by decide }

/-- `flush_window` with the mappings that are pending. -/
def flushWindow (spare : Spare) (b : Builder) : List State → Builder
  | [] => b
  | first :: rest => b.flush spare first rest

def appendMapping (spare : Spare) (b : Builder) (current : SourceMapState) : Builder :=
  let generatedLine := wrap (b.generatedLine + b.pendingGeneratedLineDelta)
  let pending := b.pending ++ [{ current with generatedLine := generatedLine }]
  let count := (b.count + 1) % 2 ^ 32
  if full : pending.length = syncInterval then
    flushWindow spare
      { b with
        generatedLine := generatedLine
        pendingGeneratedLineDelta := 0
        count := count
        pending := []
        pendingFits := by decide } pending
  else
    { b with
      generatedLine := generatedLine
      pendingGeneratedLineDelta := 0
      count := count
      pending := pending
      pendingFits := by
        have room := b.pendingFits
        simp only [pending, List.length_append, List.length_singleton] at full ⊢
        omega }

end Builder

/-! ### The blob -/

/-- The 24 bytes of a sync entry. -/
def SyncEntry.bytes (e : SyncEntry) : List UInt8 :=
  leBytes 4 (asU32 e.generatedLine) ++ leBytes 4 (asU32 e.generatedColumn) ++
    leBytes 4 e.byteOffset ++ leBytes 4 (asU32 e.originalLine) ++
    leBytes 4 (asU32 e.originalColumn) ++ leBytes 4 (asU32 e.sourceIndex)

/-- `finalize`; `none` is the panic of `u32::try_from`. -/
def Builder.finalize (spare : Spare) (b : Builder) : Option (List UInt8) :=
  let b := b.flushWindow spare b.pending
  let syncBytes := b.syncEntries.length * 24
  let streamOffset := headerSize + syncBytes
  if streamOffset < 2 ^ 32 ∧ b.syncEntries.length < 2 ^ 32 then
    some (List.replicate 24 0 ++ leBytes 4 b.syncEntries.length ++
      leBytes 4 streamOffset ++ b.syncEntries.flatMap SyncEntry.bytes ++
      b.winStream ++ List.replicate streamTailPad 0)
  else none

/-- `generate_chunk` and `from_vlq` fill in the first 24 bytes. -/
def fillHeader (blob : List UInt8) (mappingCount inputLines : Nat) : List UInt8 :=
  leBytes 8 blob.length ++ leBytes 8 mappingCount ++ leBytes 8 inputLines ++ blob.drop 24

/-- A call on a builder. -/
inductive Call where
  | lineSeparator
  | mapping (current : SourceMapState)
deriving Repr, DecidableEq

def Builder.call (spare : Spare) (b : Builder) : Call → Builder
  | .lineSeparator => b.appendLineSeparator
  | .mapping current => b.appendMapping spare current

/-- The builder after a sequence of calls. -/
def Builder.run (spare : Spare) (b : Builder) (calls : List Call) : Builder :=
  calls.foldl (Builder.call spare) b

end Bunx.SourceMap
