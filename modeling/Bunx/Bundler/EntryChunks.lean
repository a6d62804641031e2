/-
Module: Bunx.Bundler.EntryChunks
Purpose: Which entry points have a chunk of their own, and which files are in it.
Trusted boundary: none
Main exports: bytes_injective, EntriesDone, FilesDone, mem_sortChunks, countP_sortChunks,
  BundlesComplete, ReachEachOther, bundlesComplete_iff
-/
import Bunx.Bundler.ComputeChunks

namespace Bunx.Bundler

open Bunx.Lib

variable {s : Shape} {n : Nat}

/-! ### Keys -/

theorem le_byteCount (n : Nat) : n ≤ 8 * byteCount n := by
  unfold byteCount
  split
  · omega
  · omega

theorem bytes_injective : Function.Injective (bytes (n := n)) := by
  intro a b same
  funext i
  have enough := le_byteCount n
  have bytesOf := congrArg (fun bytes => bytes[i.val / 8]?) same
  have inRange : i.val / 8 < byteCount n := by omega
  simp only [bytes, List.getElem?_map, List.getElem?_range inRange, Option.map_some,
    Option.some.injEq] at bytesOf
  have bitOf := congrArg (fun byte => byte.testBit (i.val % 8)) bytesOf
  have position : 8 * (i.val / 8) + i.val % 8 = i.val := Nat.div_add_mod i.val 8
  simpa [Nat.testBit_ofBits_lt _ _ (Nat.mod_lt i.val (by decide : 0 < 8)), position] using bitOf

theorem ownBits_injective : Function.Injective (ownBits (n := n)) := by
  intro i j same
  have bit := congrFun same i
  simpa [ownBits] using bit

namespace Linked

variable (l : Linked s n)

/-- The bits of a file. -/
abbrev bits (f : s.File) : Fin n → Bool := l.reachability.entryBits f

/-- The key of an entry point's JS chunk. -/
def key (i : Fin n) : List Nat := jsChunkKey l i (l.bits (l.entryPoints i))

theorem entryLive (i : Fin n) : l.filesLive (l.entryPoints i) = true := by
  rw [l.isLive]
  exact .entryPoint (List.mem_ofFn.mpr ⟨i, rfl⟩)

theorem ownBit (i : Fin n) : l.bits (l.entryPoints i) i = true :=
  (l.isExact.entryBits _ i).mpr ⟨0, .here (l.entryLive i)⟩

/-- The bit that an entry point sets for its own file is there. -/
theorem setOwnBit (i : Fin n) :
    Function.update l.bits (l.entryPoints i)
      (Function.update (l.bits (l.entryPoints i)) i true) = l.bits := by
  rw [← l.ownBit i, Function.update_eq_self, Function.update_eq_self]

end Linked

/-! ### The entry points -/

/-- A JS chunk as an entry point makes it, but for its files. -/
structure IsEntryChunk (l : Linked s n) (i : Fin n) (chunk : Chunk s n) : Prop where
  entryPoint : chunk.entryPoint =
    { sourceIndex := l.entryPoints i, entryPointId := i, isEntryPoint := true }
  entryBits : chunk.entryBits = ownBits i
  isJs : chunk.isJs = true

/-- The state after some of the entry points, which are all JS. -/
structure EntriesDone (l : Linked s n) (done : List (Fin n)) (b : Building s n) : Prop where
  entryBits : b.entryBits = l.bits
  distinct : b.jsChunks.keys.Nodup
  chunkOf : ∀ k chunk, b.jsChunks.get k = some chunk → ∃ i ∈ done, l.key i = k ∧
    IsEntryChunk l i chunk ∧ chunk.filesWithPartsInChunk = [] ∧
    ∀ j ∈ done, l.key j = k → j ≤ i
  hasChunk : ∀ i ∈ done, l.key i ∈ b.jsChunks.keys
  index : ∀ i ∈ done, b.entryPointToJsChunkIdx i = b.jsChunks.indexOf (l.key i)
  css : ∀ e ∈ b.cssChunks, e.2.isJs = false
  html : ∀ e ∈ b.htmlChunks, e.2.isJs = false

namespace EntriesDone

variable {l : Linked s n} {done : List (Fin n)} {b : Building s n}

theorem empty : EntriesDone l [] (.empty l) where
  entryBits := rfl
  distinct := List.nodup_nil
  chunkOf k chunk found := by cases found
  hasChunk i member := by cases member
  index i member := by cases member
  css e member := by cases member
  html e member := by cases member

theorem step (entries : EntriesDone l done b) {i : Fin n}
    (isJs : l.graph.isCss (l.entryPoints i) = false) (isLast : ∀ j ∈ done, j < i) :
    EntriesDone l (done ++ [i]) (addEntryPoint l b i) := by
  have entryBits : Function.update b.entryBits (l.entryPoints i)
      (Function.update (b.entryBits (l.entryPoints i)) i true) = l.bits := by
    rw [entries.entryBits, l.setOwnBit]
  have html : ∀ e ∈ (if l.graph.isHtml (l.entryPoints i) = true then
      b.htmlChunks.put (l.key i) (·.getD (entryChunk l i .html false)) else b.htmlChunks),
      e.2.isJs = false := by
    split
    · exact OrderedMap.mem_put (P := fun chunk : Chunk s n => chunk.isJs = false) entries.html rfl fun _ => id
    · exact entries.html
  obtain ⟨links, cssChunks, css, isStep⟩ : ∃ links cssChunks,
      (∀ e ∈ (cssChunks : OrderedMap Nat (Chunk s n)), e.2.isJs = false) ∧
      addEntryPoint l b i = {
        entryBits := l.bits
        htmlChunks := if l.graph.isHtml (l.entryPoints i) = true then
          b.htmlChunks.put (l.key i) (·.getD (entryChunk l i .html false)) else b.htmlChunks
        cssChunks := cssChunks
        jsChunks := b.jsChunks.put (l.key i) fun _ =>
          entryChunk l i (.javascript links) (l.graph.isHtml (l.entryPoints i))
        entryPointToJsChunkIdx := Function.update b.entryPointToJsChunkIdx i
          ((b.jsChunks.put (l.key i) fun _ => entryChunk l i (.javascript links)
            (l.graph.isHtml (l.entryPoints i))).indexOf (l.key i)) } := by
    unfold addEntryPoint
    simp only [isJs, entryBits, Bool.false_eq_true, if_false]
    cases l.importedCss (l.entryPoints i) with
    | none => exact ⟨[], b.cssChunks, entries.css, rfl⟩
    | some imported =>
        refine ⟨_, _, ?_, rfl⟩
        exact OrderedMap.mem_put (P := fun chunk : Chunk s n => chunk.isJs = false) entries.css rfl fun _ => id
  rw [isStep]
  have isEntry : IsEntryChunk l i
      (entryChunk l i (.javascript links) (l.graph.isHtml (l.entryPoints i))) := ⟨rfl, rfl, rfl⟩
  exact {
    entryBits := rfl
    distinct := OrderedMap.nodup_put entries.distinct
    chunkOf := fun k chunk found => by
      rw [OrderedMap.get_put] at found
      by_cases isKey : l.key i = k
      · rw [if_pos isKey, Option.some.injEq] at found
        refine ⟨i, List.mem_append_right _ (List.mem_singleton_self i), isKey, found ▸ isEntry,
          found ▸ rfl, ?_⟩
        intro j member _
        rcases List.mem_append.mp member with before | now
        · exact (isLast j before).le
        · exact (List.mem_singleton.mp now).le
      · rw [if_neg isKey] at found
        obtain ⟨j, before, isKeyOf, entry, noFiles, last⟩ := entries.chunkOf k chunk found
        refine ⟨j, List.mem_append_left _ before, isKeyOf, entry, noFiles, ?_⟩
        intro other member same
        rcases List.mem_append.mp member with before | now
        · exact last other before same
        · rw [List.mem_singleton.mp now] at same
          exact absurd same isKey
    hasChunk := fun j member => by
      rw [OrderedMap.mem_keys_iff, OrderedMap.get_put]
      by_cases same : l.key i = l.key j
      · exact ⟨_, if_pos same⟩
      · rw [if_neg same, ← OrderedMap.mem_keys_iff]
        rcases List.mem_append.mp member with before | now
        · exact entries.hasChunk j before
        · exact absurd (congrArg l.key (List.mem_singleton.mp now)).symm same
    index := fun j member => by
      rcases List.mem_append.mp member with before | now
      · rw [OrderedMap.indexOf_put (entries.hasChunk j before)]
        dsimp only
        rw [Function.update_of_ne (isLast j before).ne]
        exact entries.index j before
      · rw [List.mem_singleton.mp now]
        dsimp only
        rw [Function.update_self]
    css := css
    html := html }

theorem run (entries : EntriesDone l done b) {rest : List (Fin n)}
    (areJs : ∀ i, l.graph.isCss (l.entryPoints i) = false)
    (increasing : (done ++ rest).Pairwise (· < ·)) :
    EntriesDone l (done ++ rest) (rest.foldl (addEntryPoint l) b) := by
  induction rest generalizing done b with
  | nil => rwa [List.append_nil]
  | cons i rest ih =>
      have isLast : ∀ j ∈ done, j < i := fun j member =>
        (List.pairwise_append.mp increasing).2.2 j member i (List.mem_cons_self ..)
      rw [List.append_cons] at increasing ⊢
      exact ih (entries.step (areJs i) isLast) increasing

end EntriesDone

/-! ### Files without code splitting -/

/-- All JS chunks stay, and each of them gets the files that belong to its key. -/
structure Puts (belongs : s.File → List Nat → Prop)
    (before after : OrderedMap (List Nat) (Chunk s n)) : Prop where
  keys : after.keys = before.keys
  files : ∀ k chunk', after.get k = some chunk' → ∃ chunk files, before.get k = some chunk ∧
    chunk' = { chunk with filesWithPartsInChunk := files } ∧
    ∀ x, x ∈ files ↔ x ∈ chunk.filesWithPartsInChunk ∨ belongs x k

namespace Puts

variable {before middle after : OrderedMap (List Nat) (Chunk s n)}
variable {first second : s.File → List Nat → Prop}

theorem none (js : OrderedMap (List Nat) (Chunk s n)) : Puts (fun _ _ => False) js js where
  keys := rfl
  files k chunk found := ⟨chunk, chunk.filesWithPartsInChunk, found, rfl, fun x => by simp⟩

theorem trans (one : Puts first before middle) (two : Puts second middle after) :
    Puts (fun x k => first x k ∨ second x k) before after where
  keys := two.keys.trans one.keys
  files k chunk'' found := by
    obtain ⟨chunk', files', inMiddle, rfl, isFile'⟩ := two.files k chunk'' found
    obtain ⟨chunk, files, inBefore, rfl, isFile⟩ := one.files k chunk' inMiddle
    refine ⟨chunk, files', inBefore, rfl, fun x => ?_⟩
    rw [isFile' x, ← or_assoc]
    exact or_congr (isFile x) Iff.rfl

theorem congr (puts : Puts first before after) (same : ∀ x k, first x k ↔ second x k) :
    Puts second before after := by
  have isSame : first = second := by
    funext x k
    exact propext (same x k)
  rwa [← isSame]

/-- One file is put at the position of one key. -/
theorem modifyAt {k : List Nat} {index : Nat} (isIndex : before.indexOf k = some index)
    (f : s.File) : Puts (fun x k' => x = f ∧ k = k') before
      (before.modifyAt index (Chunk.putFile f)) where
  keys := OrderedMap.keys_modifyAt
  files k' chunk' found := by
    rw [OrderedMap.get_modifyAt isIndex] at found
    by_cases isKey : k = k'
    · rw [if_pos isKey, Option.map_eq_some_iff] at found
      obtain ⟨chunk, isChunk, rfl⟩ := found
      by_cases there : f ∈ chunk.filesWithPartsInChunk
      · refine ⟨chunk, chunk.filesWithPartsInChunk, isChunk, by simp [Chunk.putFile, there], ?_⟩
        intro x
        constructor
        · exact .inl
        · rintro (isFile | ⟨rfl, _⟩)
          · exact isFile
          · exact there
      · refine ⟨chunk, chunk.filesWithPartsInChunk ++ [f], isChunk,
          by simp [Chunk.putFile, there], ?_⟩
        simp [isKey]
    · rw [if_neg isKey] at found
      exact ⟨chunk', chunk'.filesWithPartsInChunk, found, rfl, fun x => by simp [isKey]⟩

end Puts

/-- A file that belongs to the chunks of all entry points that reach it. -/
def BelongsTo (l : Linked s n) (f : s.File) (k : List Nat) : Prop :=
  l.filesLive f = true ∧ l.graph.isCss f = false ∧ ∃ i, l.bits f i = true ∧ l.key i = k

section NoSplitting

variable {l : Linked s n} {b : Building s n}

/-- Positions of the entry points' chunks, and the bits. -/
structure Indexed (l : Linked s n) (b : Building s n) : Prop where
  entryBits : b.entryBits = l.bits
  hasChunk : ∀ i, l.key i ∈ b.jsChunks.keys
  index : ∀ i, b.entryPointToJsChunkIdx i = b.jsChunks.indexOf (l.key i)

theorem Indexed.of_keys {js : OrderedMap (List Nat) (Chunk s n)} (indexed : Indexed l b)
    (same : js.keys = b.jsChunks.keys) : Indexed l { b with jsChunks := js } where
  entryBits := indexed.entryBits
  hasChunk i := same ▸ indexed.hasChunk i
  index i := (indexed.index i).trans (OrderedMap.indexOf_eq_of_keys_eq same).symm

theorem putBits (indexed : Indexed l b) (f : s.File) (is : List (Fin n)) :
    Puts (fun x k => x = f ∧ ∃ i ∈ is, l.key i = k) b.jsChunks
      (is.foldl (fun jsChunks i =>
        match b.entryPointToJsChunkIdx i with
        | none => jsChunks
        | some index => jsChunks.modifyAt index (Chunk.putFile f)) b.jsChunks) := by
  suffices step : ∀ js, js.keys = b.jsChunks.keys →
      Puts (fun x k => x = f ∧ ∃ i ∈ is, l.key i = k) js
        (is.foldl (fun jsChunks i =>
          match b.entryPointToJsChunkIdx i with
          | none => jsChunks
          | some index => jsChunks.modifyAt index (Chunk.putFile f)) js) from step _ rfl
  induction is with
  | nil => exact fun js _ => (Puts.none js).congr fun x k => by simp
  | cons i is ih =>
      intro js same
      obtain ⟨index, isIndex⟩ := OrderedMap.indexOf_isSome (indexed.hasChunk i)
      have first : Puts (fun x k => x = f ∧ l.key i = k) js
          (js.modifyAt index (Chunk.putFile f)) :=
        .modifyAt ((OrderedMap.indexOf_eq_of_keys_eq same).trans isIndex) f
      rw [List.foldl_cons, indexed.index i, isIndex]
      apply (first.trans (ih _ (first.keys.trans same))).congr
      intro x k
      rw [← and_or_left]
      simp

theorem addFile_puts (noSplitting : l.graph.codeSplitting = false) (indexed : Indexed l b)
    (f : s.File) : ∃ js, addFile l b f = { b with jsChunks := js } ∧
      Puts (fun x k => x = f ∧ BelongsTo l x k) b.jsChunks js := by
  unfold addFile
  by_cases isPut : l.filesLive f = true ∧ l.graph.isCss f = false
  · rw [if_pos isPut, noSplitting, if_neg Bool.false_ne_true]
    refine ⟨_, rfl, (putBits indexed f _).congr fun x k => ?_⟩
    apply and_congr_right
    rintro rfl
    simp [BelongsTo, isPut, indexed.entryBits]
  · rw [if_neg isPut]
    refine ⟨b.jsChunks, rfl, (Puts.none _).congr fun x k => ?_⟩
    rw [false_iff]
    rintro ⟨rfl, isLive, isJs, _⟩
    exact isPut ⟨isLive, isJs⟩

theorem addFile_run (noSplitting : l.graph.codeSplitting = false) (indexed : Indexed l b)
    (fs : List s.File) : ∃ js, fs.foldl (addFile l) b = { b with jsChunks := js } ∧
      Puts (fun x k => x ∈ fs ∧ BelongsTo l x k) b.jsChunks js := by
  induction fs generalizing b with
  | nil => exact ⟨b.jsChunks, rfl, (Puts.none _).congr fun x k => by simp⟩
  | cons f fs ih =>
      obtain ⟨middle, isStep, first⟩ := addFile_puts noSplitting indexed f
      obtain ⟨js, isRest, rest⟩ := ih (indexed.of_keys first.keys)
      refine ⟨js, ?_, (first.trans rest).congr fun x k => ?_⟩
      · rw [List.foldl_cons, isStep]
        exact isRest
      · rw [← or_and_right, List.mem_cons]

end NoSplitting

/-! ### Files with code splitting -/

/-- The state after some of the files: each chunk has the files with its bits. -/
structure SplitDone (l : Linked s n) (done : List s.File) (b : Building s n) : Prop where
  entryBits : b.entryBits = l.bits
  distinct : b.jsChunks.keys.Nodup
  chunk : ∀ k chunk, b.jsChunks.get k = some chunk → chunk.isJs = true ∧
    bytes chunk.entryBits = k ∧ ∀ x, x ∈ chunk.filesWithPartsInChunk ↔
      x ∈ done ∧ l.filesLive x = true ∧ l.graph.isCss x = false ∧ bytes (l.bits x) = k
  hasChunk : ∀ f ∈ done, l.filesLive f = true → l.graph.isCss f = false →
    bytes (l.bits f) ∈ b.jsChunks.keys
  entry : ∀ i, ∃ chunk, b.jsChunks.get (bytes (ownBits i)) = some chunk ∧
    chunk.entryPoint = { sourceIndex := l.entryPoints i, entryPointId := i, isEntryPoint := true }

/-- A file that is put changes nothing else of a chunk. -/
theorem putFile_eq (f : s.File) (chunk : Chunk s n) : ∃ files,
    chunk.putFile f = { chunk with filesWithPartsInChunk := files } ∧
      ∀ x, x ∈ files ↔ x ∈ chunk.filesWithPartsInChunk ∨ x = f := by
  by_cases there : f ∈ chunk.filesWithPartsInChunk
  · refine ⟨chunk.filesWithPartsInChunk, by simp [Chunk.putFile, there], fun x => ?_⟩
    constructor
    · exact .inl
    · rintro (isFile | rfl)
      · exact isFile
      · exact there
  · exact ⟨chunk.filesWithPartsInChunk ++ [f], by simp [Chunk.putFile, there], by simp⟩

namespace SplitDone

variable {l : Linked s n} {done : List s.File} {b : Building s n}

theorem step (split : SplitDone l done b) (splitting : l.graph.codeSplitting = true)
    (f : s.File) : SplitDone l (done ++ [f]) (addFile l b f) := by
  unfold addFile
  by_cases isPut : l.filesLive f = true ∧ l.graph.isCss f = false
  · rw [if_pos isPut, splitting, if_pos rfl, split.entryBits]
    -- The chunk as it was found, or made for the file.
    obtain ⟨chunk, isChunk, isJs, isKey, isFile⟩ : ∃ chunk,
        ((b.jsChunks.get (bytes (l.bits f))).getD (sharedChunk f (l.bits f))) = chunk ∧
        chunk.isJs = true ∧ bytes chunk.entryBits = bytes (l.bits f) ∧
        ∀ x, x ∈ chunk.filesWithPartsInChunk ↔ x ∈ done ∧ l.filesLive x = true ∧
          l.graph.isCss x = false ∧ bytes (l.bits x) = bytes (l.bits f) := by
      cases found : b.jsChunks.get (bytes (l.bits f)) with
      | some chunk => exact ⟨chunk, rfl, split.chunk _ _ found⟩
      | none =>
          refine ⟨sharedChunk f (l.bits f), rfl, rfl, rfl, fun x => ?_⟩
          have nothing : x ∉ (sharedChunk f (l.bits f)).filesWithPartsInChunk := List.not_mem_nil
          simp only [nothing, false_iff]
          rintro ⟨isDone, isLive, isJs, same⟩
          have member := split.hasChunk x isDone isLive isJs
          rw [same, OrderedMap.mem_keys_iff, found] at member
          obtain ⟨_, isNone⟩ := member
          cases isNone
    obtain ⟨files, isPutFile, mem_files⟩ := putFile_eq f chunk
    have get_put (k : List Nat) : (b.jsChunks.put (bytes (l.bits f)) fun found =>
        (found.getD (sharedChunk f (l.bits f))).putFile f).get k =
          if bytes (l.bits f) = k then some { chunk with filesWithPartsInChunk := files }
          else b.jsChunks.get k := by
      rw [OrderedMap.get_put, isChunk, isPutFile]
    exact {
      entryBits := rfl
      distinct := OrderedMap.nodup_put split.distinct
      chunk := fun k chunk' found => by
        rw [get_put] at found
        by_cases same : bytes (l.bits f) = k
        · rw [if_pos same, Option.some.injEq] at found
          subst found
          refine ⟨isJs, isKey.trans same, fun x => ?_⟩
          rw [mem_files, isFile, List.mem_append, List.mem_singleton, ← same]
          constructor
          · rintro (⟨isDone, rest⟩ | rfl)
            · exact ⟨.inl isDone, rest⟩
            · exact ⟨.inr rfl, isPut.1, isPut.2, rfl⟩
          · rintro ⟨isDone | isThis, rest⟩
            · exact .inl ⟨isDone, rest⟩
            · exact .inr isThis
        · rw [if_neg same] at found
          obtain ⟨isJs', isKey', isFile'⟩ := split.chunk k chunk' found
          refine ⟨isJs', isKey', fun x => ?_⟩
          rw [isFile', List.mem_append, List.mem_singleton]
          constructor
          · rintro ⟨isDone, rest⟩
            exact ⟨.inl isDone, rest⟩
          · rintro ⟨isDone | rfl, isLive, isJsFile, isKeyFile⟩
            · exact ⟨isDone, isLive, isJsFile, isKeyFile⟩
            · exact absurd isKeyFile same
      hasChunk := fun x member isLive isJsFile => by
        rw [OrderedMap.mem_keys_iff, get_put]
        by_cases same : bytes (l.bits f) = bytes (l.bits x)
        · exact ⟨_, if_pos same⟩
        · rw [if_neg same, ← OrderedMap.mem_keys_iff]
          rcases List.mem_append.mp member with isDone | isThis
          · exact split.hasChunk x isDone isLive isJsFile
          · rw [List.mem_singleton.mp isThis] at same
            exact absurd rfl same
      entry := fun i => by
        obtain ⟨chunk', found, isEntry⟩ := split.entry i
        rw [get_put]
        by_cases same : bytes (l.bits f) = bytes (ownBits i)
        · refine ⟨_, if_pos same, ?_⟩
          rw [← same] at found
          rw [found, Option.getD_some] at isChunk
          rw [← isChunk]
          exact isEntry
        · exact ⟨chunk', (if_neg same).trans found, isEntry⟩ }
  · rw [if_neg isPut]
    have same (x : s.File) : x ∈ done ++ [f] ∧ l.filesLive x = true ∧ l.graph.isCss x = false ↔
        x ∈ done ∧ l.filesLive x = true ∧ l.graph.isCss x = false := by
      rw [List.mem_append, List.mem_singleton]
      constructor
      · rintro ⟨isDone | rfl, isLive, isJs⟩
        · exact ⟨isDone, isLive, isJs⟩
        · exact absurd ⟨isLive, isJs⟩ isPut
      · rintro ⟨isDone, isLive, isJs⟩
        exact ⟨.inl isDone, isLive, isJs⟩
    exact { split with
      chunk := fun k chunk found => by
        obtain ⟨isJs, isKey, isFile⟩ := split.chunk k chunk found
        refine ⟨isJs, isKey, fun x => ?_⟩
        rw [isFile x, ← and_assoc, ← and_assoc, and_assoc (a := x ∈ done), ← same x]
        simp only [and_assoc]
      hasChunk := fun x member isLive isJs =>
        split.hasChunk x ((same x).mp ⟨member, isLive, isJs⟩).1 isLive isJs }

theorem run (split : SplitDone l done b) (splitting : l.graph.codeSplitting = true)
    (fs : List s.File) : SplitDone l (done ++ fs) (fs.foldl (addFile l) b) := by
  induction fs generalizing done b with
  | nil => rwa [List.append_nil]
  | cons f fs ih =>
      rw [List.append_cons]
      exact ih (split.step splitting f)

end SplitDone

/-! ### Order -/

/-- Sorting keeps the JS chunks: what is counted of them is what their keys have. -/
theorem countP_sortChunks {b : Building s n} (p : Chunk s n → Bool)
    (onlyJs : ∀ chunk, chunk.isJs = false → p chunk = false)
    (relinked : ∀ remap chunk, p (chunk.relink remap) = p chunk)
    (css : ∀ e ∈ b.cssChunks, e.2.isJs = false) (html : ∀ e ∈ b.htmlChunks, e.2.isJs = false) :
    (sortChunks b).countP p = b.jsChunks.keys.countP fun k => (b.jsChunks.get k).any p := by
  have none {chunks : List (Chunk s n)} (notJs : ∀ chunk ∈ chunks, chunk.isJs = false) :
      chunks.countP p = 0 := by
    rw [List.countP_eq_zero]
    intro chunk member
    rw [onlyJs chunk (notJs chunk member)]
    exact Bool.false_ne_true
  have placed (keys : List (List Nat)) (acc : List (Chunk s n))
      (htmlChunks : OrderedMap (List Nat) (Chunk s n)) (html : ∀ e ∈ htmlChunks, e.2.isJs = false) :
      (keys.foldl (placeChunk b.jsChunks) (acc, htmlChunks)).1.countP p =
          acc.countP p + keys.countP (fun k => (b.jsChunks.get k).any p) ∧
        ∀ e ∈ (keys.foldl (placeChunk b.jsChunks) (acc, htmlChunks)).2, e.2.isJs = false := by
    induction keys generalizing acc htmlChunks with
    | nil => exact ⟨by simp, html⟩
    | cons k keys ih =>
        rw [List.foldl_cons, List.countP_cons]
        cases found : b.jsChunks.get k with
        | none =>
            have step : placeChunk b.jsChunks (acc, htmlChunks) k = (acc, htmlChunks) := by
              simp [placeChunk, found]
            obtain ⟨count, rest⟩ := ih acc htmlChunks html
            rw [step]
            exact ⟨by simpa using count, rest⟩
        | some chunk =>
            cases foundHtml : (if chunk.hasHtmlChunk then htmlChunks.get k else Option.none) with
            | none =>
                have step : placeChunk b.jsChunks (acc, htmlChunks) k =
                    (acc ++ [chunk], htmlChunks) := by
                  simp only [placeChunk, found, foundHtml]
                obtain ⟨count, rest⟩ := ih (acc ++ [chunk]) htmlChunks html
                rw [step, count, List.countP_append, List.countP_singleton, Option.any_some]
                exact ⟨by omega, rest⟩
            | some htmlChunk =>
                have isHtml : htmlChunk.isJs = false := by
                  split at foundHtml
                  · exact html _ (OrderedMap.mem_of_get foundHtml)
                  · cases foundHtml
                have step : placeChunk b.jsChunks (acc, htmlChunks) k =
                    (acc ++ [chunk, htmlChunk], htmlChunks.swapRemove k) := by
                  simp only [placeChunk, found, foundHtml]
                obtain ⟨count, rest⟩ := ih (acc ++ [chunk, htmlChunk])
                  (htmlChunks.swapRemove k)
                  fun e member => html e (OrderedMap.mem_of_mem_swapRemove member)
                rw [step, count, List.countP_append, List.countP_cons, List.countP_singleton,
                  onlyJs htmlChunk isHtml, Option.any_some]
                simp only [Bool.false_eq_true, if_false]
                exact ⟨by omega, rest⟩
  obtain ⟨count, htmlRest⟩ := placed (sortedKeys b.jsChunks) [] b.htmlChunks html
  have sorted : (sortedKeys b.jsChunks).Perm b.jsChunks.keys := List.perm_insertionSort _ _
  rw [List.countP_nil, Nat.zero_add, sorted.countP_eq] at count
  simp only [sortChunks, List.countP_append, List.countP_map]
  have isRelinked (remap : Nat → Nat) : p ∘ Chunk.relink remap = p := funext (relinked remap)
  have noneHtml : (OrderedMap.values ((sortedKeys b.jsChunks).foldl (placeChunk b.jsChunks)
      ([], b.htmlChunks)).2).countP p = 0 := by
    apply none
    intro chunk member
    obtain ⟨e, isEntry, rfl⟩ := List.mem_map.mp member
    exact htmlRest e isEntry
  have noneCss : ((b.cssChunks.keys.insertionSort (· ≤ ·)).filterMap b.cssChunks.get).countP p =
      0 := by
    apply none
    intro chunk member
    obtain ⟨k, _, found⟩ := List.mem_filterMap.mp member
    exact css _ (OrderedMap.mem_of_get found)
  rw [isRelinked, count, noneHtml, noneCss]
  rfl

theorem relink_same (remap : Nat → Nat) (chunk : Chunk s n) :
    (chunk.relink remap).isJs = chunk.isJs ∧
    (chunk.relink remap).entryPoint = chunk.entryPoint ∧
    (chunk.relink remap).entryBits = chunk.entryBits ∧
    (chunk.relink remap).filesWithPartsInChunk = chunk.filesWithPartsInChunk := by
  obtain ⟨entryPoint, entryBits, content, files, hasHtmlChunk⟩ := chunk
  cases content with
  | javascript cssChunks => exact ⟨rfl, rfl, rfl, rfl⟩
  | css => exact ⟨rfl, rfl, rfl, rfl⟩
  | html => exact ⟨rfl, rfl, rfl, rfl⟩

/-- A JS chunk among the sorted ones is one of the JS chunks, but for its links. -/
theorem exists_sortChunks {b : Building s n}
    (css : ∀ e ∈ b.cssChunks, e.2.isJs = false) (html : ∀ e ∈ b.htmlChunks, e.2.isJs = false)
    (P : ChunkEntryPoint s → (Fin n → Bool) → List s.File → Prop) :
    (∃ chunk ∈ sortChunks b, chunk.isJs = true ∧
      P chunk.entryPoint chunk.entryBits chunk.filesWithPartsInChunk) ↔
    ∃ k chunk, b.jsChunks.get k = some chunk ∧ chunk.isJs = true ∧
      P chunk.entryPoint chunk.entryBits chunk.filesWithPartsInChunk := by
  classical
  have count := countP_sortChunks (b := b)
    (fun chunk => chunk.isJs &&
      decide (P chunk.entryPoint chunk.entryBits chunk.filesWithPartsInChunk))
    (fun chunk notJs => by rw [notJs, Bool.false_and])
    (fun remap chunk => by
      obtain ⟨isJs, entryPoint, entryBits, files⟩ := relink_same remap chunk
      rw [isJs, entryPoint, entryBits, files]) css html
  have positive := congrArg (0 < ·) count
  simp only [List.countP_pos_iff, Bool.and_eq_true, decide_eq_true_eq] at positive
  rw [positive]
  constructor
  · rintro ⟨k, _, isSome⟩
    cases found : b.jsChunks.get k with
    | none => simp [found] at isSome
    | some chunk => exact ⟨k, chunk, found, by simpa [found] using isSome⟩
  · rintro ⟨k, chunk, found, has⟩
    refine ⟨k, OrderedMap.mem_keys_iff.mpr ⟨chunk, found⟩, ?_⟩
    simpa [found] using has

/-! ### The bundles of the entry points -/

/-- The JS chunk is the one of an entry point. -/
def MarkedWith (l : Linked s n) (i : Fin n) (chunk : Chunk s n) : Prop :=
  chunk.isJs = true ∧ chunk.entryPoint =
    { sourceIndex := l.entryPoints i, entryPointId := i, isEntryPoint := true }

local instance file_lawfulBEq (s : Shape) : LawfulBEq s.File := inferInstance

/-- Every entry point has a JS chunk. Without code splitting it has the live files that the
entry point reaches. With code splitting each live file is in exactly one JS chunk, which is
the one with the file's bits. -/
def BundlesComplete (l : Linked s n) : Prop :=
  if l.graph.codeSplitting then
    (∀ i, ∃ chunk ∈ computeChunks l, MarkedWith l i chunk) ∧
    ∀ f, l.filesLive f = true → l.graph.isCss f = false →
      (computeChunks l).countP
        (fun chunk => chunk.isJs && decide (f ∈ chunk.filesWithPartsInChunk)) = 1 ∧
      ∀ chunk ∈ computeChunks l, chunk.isJs = true → f ∈ chunk.filesWithPartsInChunk →
        chunk.entryBits = l.bits f
  else
    ∀ i, ∃ chunk ∈ computeChunks l, MarkedWith l i chunk ∧
      ∀ f, f ∈ chunk.filesWithPartsInChunk ↔
        l.filesLive f = true ∧ l.graph.isCss f = false ∧ l.bits f i = true

/-- Two entry points reach each other, and both are HTML files or neither is. -/
def ReachEachOther (l : Linked s n) (i j : Fin n) : Prop :=
  l.bits (l.entryPoints j) i = true ∧ l.bits (l.entryPoints i) j = true ∧
    l.graph.isHtml (l.entryPoints i) = l.graph.isHtml (l.entryPoints j)

section Bundles

variable {l : Linked s n}

theorem LivePath.trans {filesLive : s.File → Bool} {edge : s.File → s.File → Prop}
    {k m : Nat} {e f x : s.File} (first : LivePath filesLive edge k e f)
    (second : LivePath filesLive edge m f x) : LivePath filesLive edge (k + m) e x := by
  induction second with
  | here _ => exact first
  | step _ follows isLive ih => exact .step (ih first) follows isLive

/-- What an entry point reaches has the entry point's bits. -/
theorem bits_of_reached {i : Fin n} {f : s.File} (reached : l.bits f i = true) {m : Fin n}
    (bit : l.bits (l.entryPoints i) m = true) : l.bits f m = true := by
  obtain ⟨_, first⟩ := (l.isExact.entryBits _ m).mp bit
  obtain ⟨_, second⟩ := (l.isExact.entryBits f i).mp reached
  exact (l.isExact.entryBits f m).mpr ⟨_, first.trans second⟩

/-- Without code splitting two entry points have one key when they reach each other. -/
theorem key_eq_iff (noSplitting : l.graph.codeSplitting = false) (i j : Fin n) :
    l.key i = l.key j ↔ ReachEachOther l i j := by
  have isKey (i : Fin n) : l.key i =
      (if l.graph.isHtml (l.entryPoints i) then 0 else 1) :: bytes (l.bits (l.entryPoints i)) := by
    simp [Linked.key, jsChunkKey, noSplitting]
  rw [isKey, isKey, List.cons_eq_cons, bytes_injective.eq_iff]
  have sameHtml : ((if l.graph.isHtml (l.entryPoints i) then 0 else 1) =
      (if l.graph.isHtml (l.entryPoints j) then 0 else 1)) ↔
        l.graph.isHtml (l.entryPoints i) = l.graph.isHtml (l.entryPoints j) := by
    cases l.graph.isHtml (l.entryPoints i) <;> cases l.graph.isHtml (l.entryPoints j) <;> decide
  rw [sameHtml]
  constructor
  · rintro ⟨html, sameBits⟩
    exact ⟨sameBits ▸ l.ownBit i, sameBits ▸ l.ownBit j, html⟩
  · rintro ⟨forward, back, html⟩
    refine ⟨html, funext fun m => Bool.eq_iff_iff.mpr ⟨?_, ?_⟩⟩
    · exact bits_of_reached forward
    · exact bits_of_reached back

theorem entriesDone (areJs : ∀ i, l.graph.isCss (l.entryPoints i) = false) :
    EntriesDone l (List.finRange n) ((List.finRange n).foldl (addEntryPoint l) (.empty l)) :=
  EntriesDone.empty.run areJs (List.pairwise_lt_finRange n)

/-- Without entry points nothing is live. -/
theorem not_live_of_isEmpty (isEmpty : n = 0) (f : s.File) : l.filesLive f ≠ true := by
  subst isEmpty
  intro isLive
  have needed : Needed l.graph (List.ofFn l.entryPoints) (.inl f) := (l.isLive f).mp isLive
  rw [← led_iff_needed] at needed
  obtain ⟨v, member, _⟩ := needed
  simp at member

/-- The files change JS chunks only. -/
theorem addFiles_maps (b : Building s n) :
    (addFiles l b).cssChunks = b.cssChunks ∧ (addFiles l b).htmlChunks = b.htmlChunks := by
  have step (b : Building s n) (f : s.File) :
      (addFile l b f).cssChunks = b.cssChunks ∧ (addFile l b f).htmlChunks = b.htmlChunks := by
    unfold addFile
    split
    · split
      · exact ⟨rfl, rfl⟩
      · exact ⟨rfl, rfl⟩
    · exact ⟨rfl, rfl⟩
  have run (fs : List s.File) (b : Building s n) :
      (fs.foldl (addFile l) b).cssChunks = b.cssChunks ∧
        (fs.foldl (addFile l) b).htmlChunks = b.htmlChunks := by
    induction fs generalizing b with
    | nil => exact ⟨rfl, rfl⟩
    | cons f fs ih =>
        obtain ⟨css, html⟩ := ih (addFile l b f)
        exact ⟨css.trans (step b f).1, html.trans (step b f).2⟩
  unfold addFiles
  split
  · exact ⟨rfl, rfl⟩
  · exact run l.reachable b

/-! ### Without code splitting -/

theorem files_of_noSplitting (areJs : ∀ i, l.graph.isCss (l.entryPoints i) = false)
    (noSplitting : l.graph.codeSplitting = false) :
    ∃ b b', EntriesDone l (List.finRange n) b ∧ Puts (BelongsTo l) b.jsChunks b'.jsChunks ∧
      computeChunks l = sortChunks b' ∧ b'.cssChunks = b.cssChunks ∧
      b'.htmlChunks = b.htmlChunks := by
  have entries := entriesDone areJs
  unfold computeChunks
  generalize (List.finRange n).foldl (addEntryPoint l) (.empty l) = b at entries ⊢
  refine ⟨b, addFiles l b, entries, ?_, rfl, addFiles_maps b⟩
  unfold addFiles
  cases isEmpty : b.jsChunks.isEmpty with
  | true =>
      rw [if_pos rfl, List.isEmpty_iff.mp isEmpty]
      refine ⟨rfl, ?_⟩
      intro k chunk found
      cases found
  | false =>
      have indexed : Indexed l b := ⟨entries.entryBits,
        fun i => entries.hasChunk i (List.mem_finRange i),
        fun i => entries.index i (List.mem_finRange i)⟩
      obtain ⟨js, isRun, puts⟩ := addFile_run noSplitting indexed l.reachable
      rw [if_neg Bool.false_ne_true, isRun]
      apply puts.congr
      intro x k
      rw [and_iff_right_iff_imp]
      exact fun belongs => l.liveReachable x belongs.1

/-- Without code splitting the bundles are complete when no two entry points reach each other. -/
theorem bundlesComplete_noSplitting (areJs : ∀ i, l.graph.isCss (l.entryPoints i) = false)
    (noSplitting : l.graph.codeSplitting = false) :
    BundlesComplete l ↔ ∀ i j, ReachEachOther l i j → i = j := by
  obtain ⟨b, b', entries, puts, isChunks, css, html⟩ := files_of_noSplitting areJs noSplitting
  have isExists := exists_sortChunks (b := b') (css ▸ entries.css) (html ▸ entries.html)
  rw [BundlesComplete, noSplitting, if_neg Bool.false_ne_true, isChunks]
  constructor
  · intro complete i j reach
    -- The chunk at an entry point's key is that of the last one with the key.
    have last (i j : Fin n) (same : l.key j = l.key i) : j ≤ i := by
      obtain ⟨chunk, member, ⟨isJs, isMark⟩, _⟩ := complete i
      obtain ⟨k, chunk', found, _, isMark'⟩ :=
        (isExists fun mark _ _ => mark.entryPointId = i).mp
          ⟨chunk, member, isJs, by rw [isMark]⟩
      obtain ⟨chunk₀, files, found₀, rfl, _⟩ := puts.files k chunk' found
      obtain ⟨i', _, isKey, isEntry, _, isLast⟩ := entries.chunkOf k chunk₀ found₀
      have sameId : i' = i := by
        apply Fin.ext
        simpa [isEntry.entryPoint] using isMark'
      rw [sameId] at isKey isLast
      exact isLast j (List.mem_finRange j) (same.trans isKey)
    have same := (key_eq_iff noSplitting i j).mpr reach
    exact le_antisymm (last j i same) (last i j same.symm)
  · intro apart i
    have key_injective (j : Fin n) (same : l.key j = l.key i) : j = i :=
      apart j i ((key_eq_iff noSplitting j i).mp same)
    have member : l.key i ∈ b'.jsChunks.keys :=
      puts.keys ▸ entries.hasChunk i (List.mem_finRange i)
    obtain ⟨chunk', found⟩ := OrderedMap.mem_keys_iff.mp member
    obtain ⟨chunk₀, files, found₀, rfl, isFile⟩ := puts.files _ chunk' found
    obtain ⟨i', _, isKey, isEntry, noFiles, _⟩ := entries.chunkOf _ chunk₀ found₀
    have sameId := key_injective i' isKey
    subst sameId
    have isComplete := (isExists fun mark _ files =>
      mark = { sourceIndex := l.entryPoints i', entryPointId := i', isEntryPoint := true } ∧
      ∀ f, f ∈ files ↔ l.filesLive f = true ∧ l.graph.isCss f = false ∧ l.bits f i' = true).mpr
        ⟨_, _, found, isEntry.isJs, isEntry.entryPoint, fun f => by
          rw [isFile, noFiles]
          constructor
          · rintro (none | ⟨isLive, isJsFile, j, bit, same⟩)
            · cases none
            · rw [key_injective j same] at bit
              exact ⟨isLive, isJsFile, bit⟩
          · rintro ⟨isLive, isJsFile, bit⟩
            exact .inr ⟨isLive, isJsFile, i', bit, rfl⟩⟩
    obtain ⟨chunk, member, isJs, isMark, isFiles⟩ := isComplete
    exact ⟨chunk, member, ⟨isJs, isMark⟩, isFiles⟩

/-! ### With code splitting -/

theorem files_of_splitting (areJs : ∀ i, l.graph.isCss (l.entryPoints i) = false)
    (splitting : l.graph.codeSplitting = true) :
    ∃ b', SplitDone l l.reachable b' ∧ computeChunks l = sortChunks b' ∧
      (∀ e ∈ b'.cssChunks, e.2.isJs = false) ∧ ∀ e ∈ b'.htmlChunks, e.2.isJs = false := by
  have entries := entriesDone areJs
  unfold computeChunks
  generalize (List.finRange n).foldl (addEntryPoint l) (.empty l) = b at entries ⊢
  have isKey (i : Fin n) : l.key i = bytes (ownBits i) := by
    simp [Linked.key, jsChunkKey, splitting]
  obtain ⟨sameCss, sameHtml⟩ := addFiles_maps (l := l) b
  refine ⟨addFiles l b, ?_, rfl, sameCss ▸ entries.css, sameHtml ▸ entries.html⟩
  have split : SplitDone l [] b := {
    entryBits := entries.entryBits
    distinct := entries.distinct
    chunk := fun k chunk found => by
      obtain ⟨i, _, isKeyOf, isEntry, noFiles, _⟩ := entries.chunkOf k chunk found
      refine ⟨isEntry.isJs, ?_, ?_⟩
      · rw [isEntry.entryBits, ← isKey, isKeyOf]
      · simp [noFiles]
    hasChunk := fun f member => by cases member
    entry := fun i => by
      have member := entries.hasChunk i (List.mem_finRange i)
      obtain ⟨chunk, found⟩ := OrderedMap.mem_keys_iff.mp member
      obtain ⟨j, _, same, isEntry, _, _⟩ := entries.chunkOf _ chunk found
      rw [isKey, isKey, bytes_injective.eq_iff, ownBits_injective.eq_iff] at same
      subst same
      exact ⟨chunk, isKey j ▸ found, isEntry.entryPoint⟩ }
  unfold addFiles
  cases isEmpty : b.jsChunks.isEmpty with
  | true =>
      rw [if_pos rfl]
      rw [List.isEmpty_iff] at isEmpty
      have noEntries : n = 0 := by
        by_contra some
        have member := entries.hasChunk ⟨0, Nat.pos_of_ne_zero some⟩ (List.mem_finRange _)
        rw [isEmpty] at member
        cases member
      exact { split with
        chunk := fun k chunk found => by
          rw [isEmpty] at found
          cases found
        hasChunk := fun f _ isLive => absurd isLive (not_live_of_isEmpty noEntries f) }
  | false =>
      rw [if_neg Bool.false_ne_true]
      exact split.run splitting l.reachable

theorem bundlesComplete_splitting (areJs : ∀ i, l.graph.isCss (l.entryPoints i) = false)
    (splitting : l.graph.codeSplitting = true) : BundlesComplete l := by
  obtain ⟨b, split, isChunks, css, html⟩ := files_of_splitting areJs splitting
  have isExists := exists_sortChunks css html
  rw [BundlesComplete, if_pos splitting, isChunks]
  refine ⟨fun i => ?_, fun f isLive isJsFile => ⟨?_, ?_⟩⟩
  · obtain ⟨chunk, found, isEntry⟩ := split.entry i
    obtain ⟨chunk, member, isJs, isMark⟩ := (isExists fun mark _ _ =>
      mark = { sourceIndex := l.entryPoints i, entryPointId := i, isEntryPoint := true }).mpr
        ⟨_, chunk, found, (split.chunk _ _ found).1, isEntry⟩
    exact ⟨chunk, member, isJs, isMark⟩
  · rw [countP_sortChunks _ (fun chunk notJs => by rw [notJs, Bool.false_and]) _ css html]
    · have isOne : b.jsChunks.keys.countP (fun k => (b.jsChunks.get k).any fun chunk =>
          chunk.isJs && decide (f ∈ chunk.filesWithPartsInChunk)) =
            b.jsChunks.keys.count (bytes (l.bits f)) := by
        apply List.countP_congr
        intro k member
        obtain ⟨chunk, found⟩ := OrderedMap.mem_keys_iff.mp member
        obtain ⟨isJs, _, mem_files⟩ := split.chunk k chunk found
        simp only [found, Option.any_some, isJs, Bool.true_and, decide_eq_true_eq, mem_files,
          l.liveReachable f isLive, isLive, isJsFile, true_and, beq_iff_eq]
        exact eq_comm
      rw [isOne]
      exact List.count_eq_one_of_mem split.distinct
        (split.hasChunk f (l.liveReachable f isLive) isLive isJsFile)
    · intro remap chunk
      obtain ⟨isJs, _, _, files⟩ := relink_same remap chunk
      rw [isJs, files]
  · intro chunk member isJs isFile
    by_contra different
    obtain ⟨k, chunk', found, _, isFile', different'⟩ := (isExists fun _ bits files =>
      f ∈ files ∧ bits ≠ l.bits f).mp ⟨chunk, member, isJs, isFile, different⟩
    obtain ⟨_, isKey, mem_files⟩ := split.chunk k chunk' found
    obtain ⟨_, _, _, isKeyFile⟩ := (mem_files f).mp isFile'
    exact different' (bytes_injective (isKey.trans isKeyFile.symm))

/-- The bundles are complete with code splitting, and without it exactly when no two entry
points reach each other. -/
theorem bundlesComplete_iff (l : Linked s n)
    (areJs : ∀ i, l.graph.isCss (l.entryPoints i) = false) :
    BundlesComplete l ↔
      (l.graph.codeSplitting = true ∨ ∀ i j, ReachEachOther l i j → i = j) := by
  cases splitting : l.graph.codeSplitting with
  | true => simpa using bundlesComplete_splitting areJs splitting
  | false => simpa using bundlesComplete_noSplitting areJs splitting

end Bundles

theorem twoFiles_fit : 2 < 2 ^ 32 := by decide

/-- Two files that import each other. -/
def importEachOtherGraph : LinkerGraph ⟨2, twoFiles_fit, fun _ => 0, fun _ => 1⟩ where
  part _ i := i.elim0
  importRecords f _ := {
    kind := .stmt
    sourceIndex := some (if f = 0 then 1 else 0)
    isExternalWithoutSideEffects := false
    containsImportStar := false
    containsDefaultAlias := false }
  isCss _ := false
  isHtml _ := false
  wrap _ := .none
  sideEffects _ := .hasSideEffects
  entryPointKind _ := .userSpecified
  astLen := 2
  treeShaking := true
  ignoreDceAnnotations := false
  codeSplitting := false

/-- Both of them are entry points. -/
def importEachOther : Linked ⟨2, twoFiles_fit, fun _ => 0, fun _ => 1⟩ 2 where
  graph := importEachOtherGraph
  entryPoints := id
  distinct := Function.injective_id
  filesLive _ := true
  isLive f := ⟨fun _ => .entryPoint (List.mem_ofFn.mpr ⟨f, rfl⟩), fun _ => rfl⟩
  reachability := { distances := fun _ => 0, entryBits := fun _ _ => true }
  isExact := by
    have imports (f other : Fin 2) (different : other ≠ f) :
        Follows importEachOtherGraph f other := by
      refine .inl ⟨(0 : Fin 1), ?_, ?_⟩
      · revert f other
        decide
      · revert f other
        decide
    have path (i f : Fin 2) : ∃ k, LivePath (fun _ => true) (Follows importEachOtherGraph) k i f := by
      by_cases same : f = i
      · subst same
        exact ⟨0, .here rfl⟩
      · exact ⟨1, .step (.here rfl) (imports i f same) rfl⟩
    exact {
      entryBits := fun f i => ⟨fun _ => path i f, fun _ => rfl⟩
      shortest := fun _ _ k _ => Nat.zero_le k
      attained := fun f _ => ⟨f, .here rfl⟩
      unreached := fun f none => absurd ⟨f, path f f⟩ none }
  reachable := [0, 1]
  liveReachable f _ := by
    revert f
    decide
  cssEntryHash _ := 0
  importedCss _ := none

theorem bundlesComplete_iff_importEachOther : BundlesComplete importEachOther ↔
    (importEachOther.graph.codeSplitting = true ∨
      ∀ i j, ReachEachOther importEachOther i j → i = j) :=
  bundlesComplete_iff importEachOther fun _ => rfl

/-- The first entry point has no chunk: the second one's has taken its place. -/
theorem importEachOther_not_complete : ¬BundlesComplete importEachOther := by
  intro complete
  have noSplitting : importEachOther.graph.codeSplitting = false := rfl
  rw [BundlesComplete, noSplitting, if_neg Bool.false_ne_true] at complete
  obtain ⟨chunk, member, ⟨_, isMark⟩, _⟩ := complete 0
  have others : ∀ chunk ∈ computeChunks importEachOther, chunk.entryPoint.entryPointId ≠ 0 := by
    decide +kernel
  apply others chunk member
  rw [isMark]
  rfl

end Bunx.Bundler
