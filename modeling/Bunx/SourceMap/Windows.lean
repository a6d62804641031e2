/-
Module: Bunx.SourceMap.Windows
Purpose: A blob as a list of windows: what the header and the sync entries of a
  finalized blob say, and that every window decodes to its mappings.
Trusted boundary: none
Main exports:
  Stores, finalize_stores, Window, streamOf, entriesOf, Encodes, Encodes.decode
-/
import Bunx.SourceMap.WindowRead

namespace Bunx.SourceMap

open Lib

/-! ### The outer layout -/

/-- The sync entry's fields fit their 32 bits. -/
structure SyncEntry.Fits (e : SyncEntry) : Prop where
  state : e.toState.Valid
  byteOffset : e.byteOffset < 2 ^ 32

theorem asI32_asU32 {v : Int} (inside : InI32 v) : asI32 (asU32 v) = v := by
  unfold InI32 at inside
  have value : ((v % 2 ^ 32).toNat : Int) = v % 2 ^ 32 := Int.toNat_of_nonneg (by omega)
  rw [asI32, asU32, value, wrap, Int.bmod_def]
  split <;> omega

theorem asU32_lt (v : Int) : asU32 v < 256 ^ 4 := by
  unfold asU32
  omega

@[simp] theorem SyncEntry.bytes_length (e : SyncEntry) : e.bytes.length = 24 := by
  simp [SyncEntry.bytes]

theorem flatMap_bytes_length (entries : List SyncEntry) :
    (entries.flatMap SyncEntry.bytes).length = entries.length * 24 := by
  induction entries with
  | nil => rfl
  | cons e entries ih =>
      rw [List.flatMap_cons, List.length_append, ih,
        SyncEntry.bytes_length, List.length_cons]
      omega

/-- Entry `i` stands 24 bytes behind the one before it. -/
theorem entry_at {bytes : List UInt8} {pos i : Nat} {entries : List SyncEntry}
    {e : SyncEntry} (here : At bytes pos (entries.flatMap SyncEntry.bytes))
    (isEntry : entries[i]? = some e) : At bytes (pos + i * 24) e.bytes := by
  induction entries generalizing pos i with
  | nil => cases isEntry
  | cons e' entries ih =>
      rw [List.flatMap_cons] at here
      cases i with
      | zero =>
          cases isEntry
          rw [Nat.zero_mul]
          exact here.left
      | succ i =>
          have later := ih here.right isEntry
          rw [SyncEntry.bytes_length] at later
          rwa [show pos + (i + 1) * 24 = pos + 24 + i * 24 by omega]

theorem readLe_asU32 {bytes : List UInt8} {off : Nat} {v : Int}
    (here : At bytes off (leBytes 4 (asU32 v))) : readLe bytes off 4 = some (asU32 v) :=
  readLe_leBytes (by decide) (asU32_lt v) here

/-- An entry is read back from its bytes. -/
theorem syncEntry_eq {blob : Blob} {i : Nat} {e : SyncEntry} (fits : e.Fits)
    (here : At blob (headerSize + i * 24) e.bytes) : blob.syncEntry i = some e := by
  have throughOriginalColumn := here.left
  have throughOriginalLine := throughOriginalColumn.left
  have throughOffset := throughOriginalLine.left
  have throughColumn := throughOffset.left
  have generatedLine := readLe_asU32 throughColumn.left
  have generatedColumn := readLe_asU32 throughColumn.right
  have byteOffset := readLe_leBytes (by decide) fits.byteOffset throughOffset.right
  have originalLine := readLe_asU32 throughOriginalLine.right
  have originalColumn := readLe_asU32 throughOriginalColumn.right
  have sourceIndex := readLe_asU32 here.right
  have field (v : Int) (isField : IsField v) : asI32 (asU32 v) = v :=
    asI32_asU32 isField.inI32
  simp only [List.length_append, leBytes_length, Nat.add_assoc] at *
  rw [Blob.syncEntry]
  simp only [Option.bind_eq_bind, Nat.add_assoc, generatedLine, Option.bind_some,
    generatedColumn, byteOffset, originalLine, originalColumn, sourceIndex,
    field e.generatedLine fits.state.generatedLine,
    field e.generatedColumn fits.state.generatedColumn,
    field e.originalLine fits.state.originalLine,
    field e.originalColumn fits.state.originalColumn,
    field e.sourceIndex fits.state.sourceIndex]
  rfl

/-- A blob holds sync entries and a stream. -/
structure Stores (blob : Blob) (entries : List SyncEntry) (bytes : List UInt8) :
    Prop where
  syncCount : blob.syncCount = some entries.length
  syncEntry : ∀ i e, entries[i]? = some e → blob.syncEntry i = some e
  stream : blob.stream = some (bytes ++ List.replicate streamTailPad 0)

/-- The parts of a finalized blob behind the first 24 bytes. -/
def finalizedTail (entries : List SyncEntry) (bytes : List UInt8) : List UInt8 :=
  leBytes 4 entries.length ++ leBytes 4 (headerSize + entries.length * 24) ++
    entries.flatMap SyncEntry.bytes ++ (bytes ++ List.replicate streamTailPad 0)

theorem fillHeader_finalized (entries : List SyncEntry) (bytes : List UInt8)
    (mappingCount inputLines : Nat) :
    fillHeader (List.replicate 24 0 ++ finalizedTail entries bytes) mappingCount
        inputLines =
      leBytes 8 (headerSize + entries.length * 24 + bytes.length + streamTailPad) ++
        leBytes 8 mappingCount ++ leBytes 8 inputLines ++ finalizedTail entries bytes := by
  have length : (List.replicate 24 (0 : UInt8) ++ finalizedTail entries bytes).length =
      headerSize + entries.length * 24 + bytes.length + streamTailPad := by
    simp only [finalizedTail, List.length_append, List.length_replicate, leBytes_length,
      flatMap_bytes_length, headerSize]
    omega
  rw [fillHeader, length, List.drop_left' (List.length_replicate ..)]

/-- What is read from a finalized blob whose header was filled in. -/
theorem finalized_stores {entries : List SyncEntry} {bytes : List UInt8}
    (fits : ∀ e ∈ entries, e.Fits) (few : headerSize + entries.length * 24 < 2 ^ 32)
    (short : bytes.length < 2 ^ 63) (mappingCount inputLines : Nat) :
    Stores (fillHeader (List.replicate 24 0 ++ finalizedTail entries bytes) mappingCount
      inputLines) entries bytes := by
  rw [fillHeader_finalized]
  generalize isFront : leBytes 8 (headerSize + entries.length * 24 + bytes.length +
    streamTailPad) ++ leBytes 8 mappingCount ++ leBytes 8 inputLines = front
  have frontLength : front.length = 24 := by
    simp [← isFront]
  have all : At (front ++ finalizedTail entries bytes) 0
      (front ++ finalizedTail entries bytes) := List.prefix_refl _
  have total : At (front ++ finalizedTail entries bytes) 0
      (leBytes 8 (headerSize + entries.length * 24 + bytes.length + streamTailPad) ++
        leBytes 8 mappingCount ++ leBytes 8 inputLines) := by
    rw [isFront]
    exact all.left
  have tail := all.right
  rw [frontLength] at tail
  have throughOffset := tail.left.left
  have entriesAt := tail.left.right
  have streamAt := tail.right
  have fieldsLength : ∀ n m, (leBytes 4 n ++ leBytes 4 m).length = 8 := by
    intro n m
    simp
  rw [List.length_append, fieldsLength, flatMap_bytes_length] at streamAt
  rw [fieldsLength] at entriesAt
  have offset : Blob.streamOffset (front ++ finalizedTail entries bytes) =
      some (headerSize + entries.length * 24) := by
    have here := throughOffset.right
    rw [leBytes_length] at here
    exact readLe_leBytes (by decide) few here
  have totalLen : Blob.totalLen (front ++ finalizedTail entries bytes) =
      some (headerSize + entries.length * 24 + bytes.length + streamTailPad) := by
    apply readLe_leBytes (by decide) _ total.left.left
    simp only [streamTailPad]
    omega
  constructor
  · apply readLe_leBytes (by decide) _ throughOffset.left
    omega
  · intro i e isEntry
    apply syncEntry_eq (fits e (List.mem_of_getElem? isEntry))
    exact entry_at entriesAt isEntry
  · have length : (front ++ finalizedTail entries bytes).length =
        headerSize + entries.length * 24 + (bytes ++ List.replicate streamTailPad 0).length := by
      rw [List.length_append, frontLength, finalizedTail, List.length_append,
        List.length_append, fieldsLength, flatMap_bytes_length]
      simp only [headerSize]
      omega
    have position : 0 + 24 + (8 + entries.length * 24) =
        headerSize + entries.length * 24 := by
      simp only [headerSize]
      omega
    rw [position] at streamAt
    rw [Blob.stream, offset, totalLen]
    simp only [Option.bind_eq_bind, Option.bind_some]
    rw [if_pos (by rw [length, List.length_append, List.length_replicate]; omega)]
    have whole := streamAt.take_drop
    rw [List.length_append, List.length_replicate] at whole
    rw [show headerSize + entries.length * 24 + bytes.length + streamTailPad -
      (headerSize + entries.length * 24) = bytes.length + streamTailPad by omega, whole]
    rfl

/-! ### Windows -/

/-- The mappings of a window: a first one and fewer than 64 behind it. -/
structure Window where
  first : State
  rest : List State
  few : rest.length < syncInterval

namespace Window

def mappings (w : Window) : List State := w.first :: w.rest

def bytes (w : Window) : List UInt8 := windowBytes (deltas w.first w.rest)

/-- The sync entry of a window that begins at `start`. -/
def entry (w : Window) (start : Nat) : SyncEntry where
  generatedLine := w.first.generatedLine
  generatedColumn := w.first.generatedColumn
  byteOffset := start % 2 ^ 32
  originalLine := w.first.originalLine
  originalColumn := w.first.originalColumn
  sourceIndex := w.first.sourceIndex

end Window

def mappingsOf (ws : List Window) : List State := ws.flatMap Window.mappings

def streamOf (ws : List Window) : List UInt8 := ws.flatMap Window.bytes

/-- Where a window begins in the stream. -/
def startOf (ws : List Window) (i : Nat) : Nat := (streamOf (ws.take i)).length

/-- The sync entries of windows behind `start` bytes. -/
def entriesOf : Nat → List Window → List SyncEntry
  | _, [] => []
  | start, w :: ws => w.entry start :: entriesOf (start + w.bytes.length) ws

/-- Every window begins below 4 GiB. -/
def StartsFit (ws : List Window) : Prop := ∀ i, i < ws.length → startOf ws i < 2 ^ 32

@[simp] theorem entriesOf_length (start : Nat) (ws : List Window) :
    (entriesOf start ws).length = ws.length := by
  induction ws generalizing start with
  | nil => rfl
  | cons w ws ih => simp [entriesOf, ih]

theorem startOf_succ (w : Window) (ws : List Window) (i : Nat) :
    startOf (w :: ws) (i + 1) = w.bytes.length + startOf ws i := by
  simp [startOf, streamOf]

theorem entriesOf_getElem? {ws : List Window} {i : Nat} {w : Window} (start : Nat)
    (isWindow : ws[i]? = some w) :
    (entriesOf start ws)[i]? = some (w.entry (start + startOf ws i)) := by
  induction ws generalizing start i with
  | nil => cases isWindow
  | cons w' ws ih =>
      cases i with
      | zero =>
          cases isWindow
          rfl
      | succ i =>
          have later := ih (start + w'.bytes.length) isWindow
          rw [startOf_succ, ← Nat.add_assoc]
          exact later

theorem mem_entriesOf {ws : List Window} {start : Nat} {e : SyncEntry}
    (member : e ∈ entriesOf start ws) : ∃ w ∈ ws, ∃ off, e = w.entry off := by
  induction ws generalizing start with
  | nil => cases member
  | cons w ws ih =>
      cases member with
      | head => exact ⟨w, List.mem_cons_self .., start, rfl⟩
      | tail _ later =>
          obtain ⟨w', inRest, off, same⟩ := ih later
          exact ⟨w', List.mem_cons_of_mem _ inRest, off, same⟩

/-- A window's bytes stand at its start. -/
theorem window_at {ws : List Window} {i : Nat} {w : Window} (more : List UInt8)
    (isWindow : ws[i]? = some w) : At (streamOf ws ++ more) (startOf ws i) w.bytes := by
  obtain ⟨inside, isGet⟩ := List.getElem?_eq_some_iff.mp isWindow
  have split : ws = ws.take i ++ w :: ws.drop (i + 1) := by
    rw [← isGet, ← List.drop_eq_getElem_cons inside, List.take_append_drop]
  have stream : streamOf ws =
      streamOf (ws.take i) ++ w.bytes ++ streamOf (ws.drop (i + 1)) := by
    conv_lhs => rw [split]
    simp [streamOf]
  rw [stream]
  exact (At.of_append _ _ _).extend more

theorem windowBytes_length_ge (ds : List Delta) : 32 ≤ (windowBytes ds).length := by
  rw [windowBytes, List.append_assoc, List.length_append, windowHeader_length]
  exact Nat.le_add_right ..

theorem laneBytes_length_small {lane : Lane} {ds : List Delta} (small : ds.length < 64) :
    (laneBytes lane 0 ds).length ≤ 378 := by
  have bound := laneBytes_length_le lane 0 ds
  have step : lane.step ≤ 6 := by
    cases lane <;> simp [Lane.step]
  have product := Nat.mul_le_mul step (Nat.le_of_lt_succ small)
  omega

theorem windowBytes_length_le {ds : List Delta} (small : ds.length < 64) :
    (windowBytes ds).length ≤ 2048 := by
  have lane (l : Lane) : (laneBytes l 0 ds).length ≤ 378 := laneBytes_length_small small
  have genCol := lane .genCol
  have origLine := lane .origLine
  have origCol := lane .origCol
  have genLine : (genLineSection ds).length ≤ 379 := by
    rw [genLineSection]
    split
    · rw [List.length_append, List.length_singleton]
      exact Nat.succ_le_succ (lane .genLine)
    · exact Nat.zero_le _
  have srcIdx : (srcIdxSection ds).length ≤ 386 := by
    rw [srcIdxSection]
    split
    · have := lane .srcIdx
      rw [List.length_append, maskBytes_length]
      omega
    · exact Nat.zero_le _
  simp only [windowBytes, laterSections, List.length_append, windowHeader_length,
    List.flatten_cons, List.flatten_nil, List.length_nil]
  omega

theorem Window.deltas_few (w : Window) : (deltas w.first w.rest).length < 64 := by
  rw [deltas_length]
  exact w.few

/-- Windows take at least their header. -/
theorem length_le_startOf (ws : List Window) {i : Nat} (inside : i ≤ ws.length) :
    32 * i ≤ startOf ws i := by
  induction ws generalizing i with
  | nil =>
      cases i with
      | zero => exact Nat.zero_le _
      | succ i => cases inside
  | cons w ws ih =>
      cases i with
      | zero => exact Nat.zero_le _
      | succ i =>
          have rest := ih (Nat.le_of_succ_le_succ inside)
          have one : 32 ≤ w.bytes.length := windowBytes_length_ge _
          rw [startOf_succ]
          omega

/-- With every start below 4 GiB there are not too many windows for the table. -/
theorem StartsFit.few {ws : List Window} (fits : StartsFit ws) : ws.length ≤ 2 ^ 27 := by
  rcases Nat.eq_zero_or_pos ws.length with none | some
  · rw [none]
    exact Nat.zero_le _
  · have start := fits (ws.length - 1) (by omega)
    have low := length_le_startOf ws (i := ws.length - 1) (by omega)
    omega

/-- A blob that holds windows of valid mappings, none beginning beyond 4 GiB. -/
structure Encodes (blob : Blob) (ws : List Window) : Prop where
  stores : Stores blob (entriesOf 0 ws) (streamOf ws)
  valid : ∀ s ∈ mappingsOf ws, s.Valid
  starts : StartsFit ws

theorem mem_mappingsOf {ws : List Window} {w : Window} {s : State} (member : w ∈ ws)
    (isMapping : s ∈ w.mappings) : s ∈ mappingsOf ws :=
  List.mem_flatMap.mpr ⟨w, member, isMapping⟩

theorem entriesOf_fit {ws : List Window} (valid : ∀ s ∈ mappingsOf ws, s.Valid) :
    ∀ e ∈ entriesOf 0 ws, e.Fits := by
  intro e member
  obtain ⟨w, inWindows, off, rfl⟩ := mem_entriesOf member
  constructor
  · exact valid _ (mem_mappingsOf inWindows (List.mem_cons_self ..))
  · exact Nat.mod_lt _ (by decide)

/-- The stream with its pad, as the reader sees it. -/
def paddedStream (ws : List Window) : List UInt8 :=
  streamOf ws ++ List.replicate streamTailPad 0

namespace Encodes

variable {blob : Blob} {ws : List Window} {i : Nat} {w : Window}

theorem stream (encodes : Encodes blob ws) : blob.stream = some (paddedStream ws) :=
  encodes.stores.stream

theorem syncCount (encodes : Encodes blob ws) : blob.syncCount = some ws.length := by
  rw [encodes.stores.syncCount, entriesOf_length]

theorem syncEntry (encodes : Encodes blob ws) (isWindow : ws[i]? = some w) :
    blob.syncEntry i = some (w.entry (startOf ws i)) := by
  apply encodes.stores.syncEntry
  rw [entriesOf_getElem? 0 isWindow, Nat.zero_add]

theorem firstValid (encodes : Encodes blob ws) (isWindow : ws[i]? = some w) :
    w.first.Valid :=
  encodes.valid _ (mem_mappingsOf (List.mem_of_getElem? isWindow) (List.mem_cons_self ..))

theorem restValid (encodes : Encodes blob ws) (isWindow : ws[i]? = some w) :
    ∀ s ∈ w.rest, s.Valid := fun s member =>
  encodes.valid s (mem_mappingsOf (List.mem_of_getElem? isWindow)
    (List.mem_cons_of_mem _ member))

/-- Seeding a window yields its first mapping and a reader for the others. -/
theorem seed (encodes : Encodes blob ws) (isWindow : ws[i]? = some w)
    (r : WindowReader) : ∃ r', seedWindow blob r i = some (w.first, r') ∧
      Ready (paddedStream ws) r' (deltas w.first w.rest) := by
  have inside := (List.getElem?_eq_some_iff.mp isWindow).1
  have start : startOf ws i % 2 ^ 32 = startOf ws i :=
    Nat.mod_eq_of_lt (encodes.starts i inside)
  have fits := deltas_fit (encodes.firstValid isWindow) (encodes.restValid isWindow)
  obtain ⟨r', parsed, ready⟩ := parse_ready r w.deltas_few fits (window_at _ isWindow)
  refine ⟨r', ?_, ready⟩
  rw [seedWindow, encodes.syncEntry isWindow, encodes.stream]
  simp only [Option.bind_eq_bind, Option.bind_some, Window.entry, start]
  rw [paddedStream, parsed]
  rfl

/-- Every window decodes to its mappings. -/
theorem decodeWindow (encodes : Encodes blob ws) (isWindow : ws[i]? = some w) :
    decodeWindow blob i = some w.mappings := by
  obtain ⟨r, seeded, ready⟩ := encodes.seed isWindow .dangling
  have valid := encodes.firstValid isWindow
  have rest : r.rest (paddedStream ws) syncInterval w.first = _ :=
    ready.rest w.deltas_few valid.sourceIndex.inI32
  rw [SourceMap.decodeWindow, seeded, encodes.stream]
  simp only [Option.bind_eq_bind, Option.bind_some, rest,
    applyAll_deltas valid (encodes.restValid isWindow)]
  rfl

end Encodes

theorem mapM_eq_map {α β : Type} {f : α → Option β} {g : α → β} {xs : List α}
    (same : ∀ x ∈ xs, f x = some (g x)) : xs.mapM f = some (xs.map g) := by
  induction xs with
  | nil => rfl
  | cons x xs ih =>
      have rest := ih fun y member => same y (List.mem_cons_of_mem _ member)
      rw [List.mapM_cons, same x (List.mem_cons_self ..), rest]
      rfl

/-- The whole blob decodes to the mappings of its windows. -/
theorem Encodes.decode {blob : Blob} {ws : List Window} (encodes : Encodes blob ws) :
    decode blob = some (mappingsOf ws) := by
  have each : ∀ i ∈ List.range ws.length,
      SourceMap.decodeWindow blob i = some (((ws[i]?).map Window.mappings).getD []) := by
    intro i member
    have isWindow := List.getElem?_eq_getElem (List.mem_range.mp member)
    rw [encodes.decodeWindow isWindow, isWindow]
    rfl
  have all : (List.range ws.length).map (fun i => ((ws[i]?).map Window.mappings).getD []) =
      ws.map Window.mappings := by
    apply List.ext_getElem
    · simp
    · intro i _ inside
      simp only [List.length_map] at inside
      simp [inside]
  rw [SourceMap.decode, encodes.syncCount]
  simp only [Option.bind_eq_bind, Option.bind_some, mapM_eq_map each, all]
  rw [mappingsOf, List.flatMap_def]
  rfl

end Bunx.SourceMap
