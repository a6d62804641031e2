/-
Module: Bunx.Bundler.ComputeChunks
Purpose: How the linker makes chunks: one for each entry point, those that code splitting adds,
  the files in each of them, and their order.
Trusted boundary: the CSS orders and their hashes are parameters
Main exports: Linked, Chunk, bytes, addEntryPoint, addFile, sortChunks, computeChunks
-/
import Bunx.Bundler.CodeSplitting
import Bunx.Bundler.TreeShaking
import Bunx.Lib.OrderedMap
import Mathlib.Data.List.Sort

namespace Bunx.Bundler

open Bunx.Lib

variable {s : Shape} {n : Nat}

/-! ### Data -/

/-- What the earlier passes leave: the files that tree shaking keeps, and the exact entry bits
and distances. -/
structure Linked (s : Shape) (n : Nat) where
  graph : LinkerGraph s
  entryPoints : Fin n → s.File
  distinct : Function.Injective entryPoints
  filesLive : s.File → Bool
  isLive : ∀ f, filesLive f = true ↔ NeededFile graph (List.ofFn entryPoints) f
  reachability : Reachability s n
  isExact : IsReachability (Follows graph) filesLive entryPoints reachability
  /-- `reachable_files` -/
  reachable : List s.File
  liveReachable : ∀ f, filesLive f = true → f ∈ reachable
  /-- The hash of the order in which a CSS entry point imports its files. -/
  cssEntryHash : s.File → Nat
  /-- The hash of the order of the CSS files that a JS entry point imports, and these files. -/
  importedCss : s.File → Option (Nat × List s.File)

structure ChunkEntryPoint (s : Shape) where
  sourceIndex : s.File
  entryPointId : Nat
  isEntryPoint : Bool
deriving DecidableEq

inductive Content where
  | javascript (cssChunks : List Nat)
  | css
  | html
deriving DecidableEq

structure Chunk (s : Shape) (n : Nat) where
  entryPoint : ChunkEntryPoint s
  entryBits : Fin n → Bool
  content : Content
  /-- The keys of the map, in the order in which they were put. -/
  filesWithPartsInChunk : List s.File
  hasHtmlChunk : Bool

namespace Chunk

def isJs (chunk : Chunk s n) : Bool :=
  match chunk.content with
  | .javascript _ => true
  | _ => false

def putFile (f : s.File) (chunk : Chunk s n) : Chunk s n :=
  if f ∈ chunk.filesWithPartsInChunk then chunk
  else { chunk with filesWithPartsInChunk := chunk.filesWithPartsInChunk ++ [f] }

/-- The indexes of CSS chunks are replaced. -/
def relink (remap : Nat → Nat) (chunk : Chunk s n) : Chunk s n :=
  match chunk.content with
  | .javascript cssChunks => { chunk with content := .javascript (cssChunks.map remap) }
  | _ => chunk

end Chunk

/-- A set of so many bits is kept in two words or in as many as it takes. -/
def byteCount (n : Nat) : Nat := if n ≤ 127 then 16 else 8 * ((n + 63) / 64)

/-- `AutoBitSet::bytes` -/
def bytes (bits : Fin n → Bool) : List Nat :=
  (List.range (byteCount n)).map fun j =>
    Nat.ofBits fun k : Fin 8 => if isBit : 8 * j + k < n then bits ⟨8 * j + k, isBit⟩ else false

/-! ### Entry points -/

structure Building (s : Shape) (n : Nat) where
  entryBits : s.File → Fin n → Bool
  jsChunks : OrderedMap (List Nat) (Chunk s n)
  cssChunks : OrderedMap Nat (Chunk s n)
  htmlChunks : OrderedMap (List Nat) (Chunk s n)
  entryPointToJsChunkIdx : Fin n → Option Nat

section Passes

variable (l : Linked s n)

def Building.empty : Building s n where
  entryBits := l.reachability.entryBits
  jsChunks := []
  cssChunks := []
  htmlChunks := []
  entryPointToJsChunkIdx _ := none

def ownBits (i : Fin n) : Fin n → Bool := fun j => j = i

/-- A chunk for an entry point, without any files yet. -/
def entryChunk (i : Fin n) (content : Content) (hasHtmlChunk : Bool) : Chunk s n where
  entryPoint := { sourceIndex := l.entryPoints i, entryPointId := i, isEntryPoint := true }
  entryBits := ownBits i
  content := content
  filesWithPartsInChunk := []
  hasHtmlChunk := hasHtmlChunk

def jsChunkKey (i : Fin n) (entryBits : Fin n → Bool) : List Nat :=
  if l.graph.codeSplitting then bytes (ownBits i)
  else
    -- An HTML chunk is made even if there is an identical JS file.
    (if l.graph.isHtml (l.entryPoints i) then 0 else 1) :: bytes entryBits

def addEntryPoint (b : Building s n) (i : Fin n) : Building s n :=
  let f := l.entryPoints i
  let entryBits := Function.update b.entryBits f (Function.update (b.entryBits f) i true)
  let hasHtmlChunk := l.graph.isHtml f
  let key := jsChunkKey l i (entryBits f)
  let htmlChunks :=
    if hasHtmlChunk then b.htmlChunks.put key (·.getD (entryChunk l i .html false))
    else b.htmlChunks
  if l.graph.isCss f then
    { b with
      entryBits := entryBits
      htmlChunks := htmlChunks
      cssChunks := b.cssChunks.put (l.cssEntryHash f) (·.getD (entryChunk l i .css hasHtmlChunk)) }
  else
    -- The chunk of an entry point is made even if it stays empty.
    let (cssChunks, links) :=
      match l.importedCss f with
      | none => (b.cssChunks, [])
      | some (hash, files) =>
          let cssChunks := b.cssChunks.put hash (·.getD
            { entryChunk l i .css hasHtmlChunk with
              entryBits := entryBits f
              filesWithPartsInChunk := files })
          (cssChunks, (cssChunks.indexOf hash).toList)
    let jsChunks := b.jsChunks.put key fun _ => entryChunk l i (.javascript links) hasHtmlChunk
    { entryBits := entryBits
      htmlChunks := htmlChunks
      cssChunks := cssChunks
      jsChunks := jsChunks
      entryPointToJsChunkIdx :=
        Function.update b.entryPointToJsChunkIdx i (jsChunks.indexOf key) }

/-! ### Files -/

/-- A chunk that code splitting adds for a file, and for those with the same bits. -/
def sharedChunk (f : s.File) (entryBits : Fin n → Bool) : Chunk s n where
  entryPoint := { sourceIndex := f, entryPointId := 0, isEntryPoint := false }
  entryBits := entryBits
  content := .javascript []
  filesWithPartsInChunk := []
  hasHtmlChunk := false

def addFile (b : Building s n) (f : s.File) : Building s n :=
  if l.filesLive f ∧ l.graph.isCss f = false then
    if l.graph.codeSplitting then
      { b with jsChunks := b.jsChunks.put (bytes (b.entryBits f)) fun found =>
          (found.getD (sharedChunk f (b.entryBits f))).putFile f }
    else
      { b with jsChunks := ((List.finRange n).filter (b.entryBits f)).foldl (fun jsChunks i =>
          match b.entryPointToJsChunkIdx i with
          | none => jsChunks
          | some index => jsChunks.modifyAt index (Chunk.putFile f)) b.jsChunks }
  else b

def addFiles (b : Building s n) : Building s n :=
  if b.jsChunks.isEmpty then b else l.reachable.foldl (addFile l) b

end Passes

/-! ### Order -/

/-- The first entry point comes first, and then the keys are compared. -/
def lessThan (jsChunks : OrderedMap (List Nat) (Chunk s n)) (a b : List Nat) : Bool :=
  match jsChunks.get a, jsChunks.get b with
  | none, _ => true
  | some _, none => false
  | some x, some y =>
      if x.entryPoint.entryPointId = 0 ∧ y.entryPoint.entryPointId ≠ 0 then true
      else if y.entryPoint.entryPointId = 0 ∧ x.entryPoint.entryPointId ≠ 0 then false
      else decide (a < b)

def sortedKeys (jsChunks : OrderedMap (List Nat) (Chunk s n)) : List (List Nat) :=
  jsChunks.keys.insertionSort fun a b => !lessThan jsChunks b a

/-- A JS chunk, and after it the HTML chunk that it belongs to. -/
def placeChunk (jsChunks : OrderedMap (List Nat) (Chunk s n))
    (placed : List (Chunk s n) × OrderedMap (List Nat) (Chunk s n)) (key : List Nat) :
    List (Chunk s n) × OrderedMap (List Nat) (Chunk s n) :=
  match jsChunks.get key with
  | none => placed
  | some chunk =>
      match (if chunk.hasHtmlChunk then placed.2.get key else none) with
      | some html => (placed.1 ++ [chunk, html], placed.2.swapRemove key)
      | none => (placed.1 ++ [chunk], placed.2)

def sortChunks (b : Building s n) : List (Chunk s n) :=
  let (placed, htmlChunks) := (sortedKeys b.jsChunks).foldl (placeChunk b.jsChunks)
    ([], b.htmlChunks)
  let sortedCssKeys := b.cssChunks.keys.insertionSort (· ≤ ·)
  let remap index :=
    match b.cssChunks.keys[index]? with
    | some key => placed.length + sortedCssKeys.idxOf key
    | none => index
  placed.map (Chunk.relink remap) ++ sortedCssKeys.filterMap b.cssChunks.get ++ htmlChunks.values

/-- The entry points, the files, and the order. -/
def computeChunks (l : Linked s n) : List (Chunk s n) :=
  sortChunks (addFiles l ((List.finRange n).foldl (addEntryPoint l) (.empty l)))

end Bunx.Bundler
