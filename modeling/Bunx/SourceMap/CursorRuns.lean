/-
Module: Bunx.SourceMap.CursorRuns
Purpose: Runs of a cursor: wherever it was moved before, `move_to` answers as `find`
  does; and the one statement about all stateful lookups.
Trusted boundary: none
Main exports: CursorAt, moveTo_spec, cursor_run, Built, stateful_lookups_agree
-/
import Bunx.SourceMap.CacheRuns
import Bunx.SourceMap.RoundTrip

namespace Bunx.SourceMap

open Lib

/-! ### Where a cursor stands -/

/-- What a cursor that stands in window `i` has before it: the mapping it peeked at,
the rest of the window and the later windows. -/
def ahead (ws : List Window) (i : Nat) (peek : Option State) (rest : List State) :
    List State :=
  peek.toList ++ rest ++ mappingsOf (ws.drop (i + 1))

/-- The cursor stands on `c.state`: `past` lies behind it, and its reader is behind the
mapping it peeked at, else behind `c.state`, with `rest` of the window to come. -/
structure CursorAt (blob : Blob) (ws : List Window) (c : Cursor)
    (past rest : List State) : Prop where
  map : c.map = blob
  reads : Reads (paddedStream ws) c.reader (c.peek.getD c.state) rest
  whole : mappingsOf ws = past ++ c.state :: ahead ws c.syncIdx c.peek rest

section Moves

variable {blob : Blob} {ws : List Window} {c : Cursor} {past rest : List State}
  {line col : Int}

/-- Inside a window the next mapping comes from the reader. -/
theorem advanceOne_reads {bytes : List UInt8} {s x : State}
    (stream : c.map.stream = some bytes) (isState : c.peek.getD c.state = s)
    (reads : Reads bytes c.reader s (x :: rest)) :
    ∃ r, c.advanceOne = some (some x, { c with reader := r }) ∧ Reads bytes r x rest := by
  have notDone : ¬c.reader.done = true := by
    rw [reads.done_iff]
    exact List.cons_ne_nil x rest
  obtain ⟨r, step, behind⟩ := reads.next
  refine ⟨r, ?_, behind⟩
  rw [Cursor.advanceOne, if_neg notDone, stream, isState]
  simp only [Option.bind_eq_bind, Option.bind_some]
  rw [step]
  rfl

/-- One mapping further: from this window, or the first of the next. -/
theorem advanceOne_spec (sorted : SortedBlob blob ws)
    (standing : CursorAt blob ws c past rest) :
    (c.advanceOne = some (none, c) ∧ ahead ws c.syncIdx none rest = []) ∨
    ∃ x r i rest', c.advanceOne = some (some x, { c with reader := r, syncIdx := i }) ∧
      Reads (paddedStream ws) r x rest' ∧
      ahead ws c.syncIdx none rest = x :: ahead ws i none rest' := by
  have reads := standing.reads
  have isMap := standing.map
  subst isMap
  cases rest with
  | cons x rest =>
      obtain ⟨r, advanced, behind⟩ := advanceOne_reads sorted.encodes.stream rfl reads
      exact .inr ⟨x, r, c.syncIdx, rest, advanced, behind, rfl⟩
  | nil =>
      rw [Cursor.advanceOne, if_pos (reads.done_iff.mpr rfl), sorted.encodes.syncCount]
      simp only [Option.bind_eq_bind, Option.bind_some]
      by_cases last : ws.length ≤ c.syncIdx + 1
      · left
        rw [if_pos last]
        refine ⟨rfl, ?_⟩
        rw [ahead, List.drop_eq_nil_of_le last]
        rfl
      · right
        have isWindow := List.getElem?_eq_getElem (Nat.lt_of_not_le last)
        obtain ⟨r, seeded, behind⟩ := sorted.encodes.reads isWindow c.reader
        refine ⟨_, r, c.syncIdx + 1, _, ?_, behind, ?_⟩
        · rw [if_neg last, seeded]
          rfl
        · have next := List.drop_eq_getElem_cons (Nat.lt_of_not_le last)
          rw [ahead, next]
          rfl

/-- Where a call of `move_to` ends: on the last mapping at or before the target. -/
def Arrived (blob : Blob) (ws : List Window) (line col : Int) (hasState : Bool)
    (result : Option Cursor) : Prop :=
  ∃ c past rest, result = some c ∧ CursorAt blob ws c past rest ∧
    c.hasState = hasState ∧ c.state.lessOrEqual line col = true ∧
    ∀ x, (ahead ws c.syncIdx c.peek rest).head? = some x → ¬x.lessOrEqual line col = true

/-- The mapping that was peeked at becomes the current one. -/
theorem CursorAt.takePeek (standing : CursorAt blob ws c past rest) {p : State}
    (isPeek : c.peek = some p) :
    CursorAt blob ws { c with state := p, peek := none } (past ++ [c.state]) rest := by
  have reads := standing.reads
  have whole := standing.whole
  rw [isPeek] at reads whole
  refine ⟨standing.map, reads, ?_⟩
  rw [whole]
  simp [ahead]

/-- One turn of the loop behind the peeked mapping, given all later turns. -/
theorem forward_turn (sorted : SortedBlob blob ws) {fuel : Nat}
    (later : ∀ {c : Cursor} {past rest : List State}, CursorAt blob ws c past rest →
      c.state.lessOrEqual line col = true → (ahead ws c.syncIdx c.peek rest).length < fuel →
      Arrived blob ws line col c.hasState (c.forward line col fuel))
    (standing : CursorAt blob ws c past rest) (noPeek : c.peek = none)
    (reached : c.state.lessOrEqual line col = true)
    (enough : (ahead ws c.syncIdx none rest).length ≤ fuel) :
    Arrived blob ws line col c.hasState (do
      match ← c.advanceOne with
      | (none, c) => some c
      | (some nxt, c) =>
          if nxt.lessOrEqual line col then
            Cursor.forward line col fuel { c with state := nxt }
          else some { c with peek := some nxt }) := by
  have whole := standing.whole
  rw [noPeek] at whole
  rcases advanceOne_spec sorted standing with
    ⟨advanced, nothing⟩ | ⟨x, r, i, rest', advanced, reads, split⟩
  · refine ⟨c, past, rest, ?_, standing, rfl, reached, ?_⟩
    · rw [advanced]
      rfl
    · intro x isHead
      rw [noPeek, nothing] at isHead
      cases isHead
  · rw [split] at whole enough
    rw [advanced]
    simp only [Option.bind_eq_bind, Option.bind_some]
    by_cases passed : x.lessOrEqual line col = true
    · have moved : CursorAt blob ws { c with state := x, reader := r, syncIdx := i }
          (past ++ [c.state]) rest' := by
        refine ⟨standing.map, ?_, ?_⟩
        · rw [noPeek]
          exact reads
        · rw [whole, noPeek]
          simp
      rw [if_pos passed]
      apply later moved passed
      rw [noPeek]
      exact Nat.lt_of_succ_le enough
    · rw [if_neg passed]
      refine ⟨{ c with reader := r, syncIdx := i, peek := some x }, past, rest', rfl,
        ⟨standing.map, reads, whole⟩, rfl, reached, ?_⟩
      intro y isHead
      cases isHead
      exact passed

/-- Moving on stops on the last mapping at or before the target. -/
theorem forward_spec (sorted : SortedBlob blob ws) {fuel : Nat}
    (standing : CursorAt blob ws c past rest)
    (reached : c.state.lessOrEqual line col = true)
    (enough : (ahead ws c.syncIdx c.peek rest).length < fuel) :
    Arrived blob ws line col c.hasState (c.forward line col fuel) := by
  induction fuel generalizing c past rest with
  | zero => cases enough
  | succ fuel ih =>
      rw [Cursor.forward]
      cases isPeek : c.peek with
      | none =>
          rw [isPeek] at enough
          rw [if_neg (by simp)]
          exact forward_turn sorted ih standing isPeek reached
            (Nat.le_of_lt_succ enough)
      | some p =>
          rw [isPeek] at enough
          by_cases passed : p.lessOrEqual line col = true
          · rw [if_neg (by simp [passed])]
            apply forward_turn sorted ih (standing.takePeek isPeek) rfl
              passed
            simp only [ahead, Option.toList_some, Option.toList_none, List.nil_append,
              List.length_append, List.length_singleton] at enough ⊢
            omega
          · rw [if_pos (by simp [passed])]
            refine ⟨c, past, rest, rfl, standing, rfl, reached, ?_⟩
            intro x isHead
            rw [isPeek] at isHead
            cases isHead
            exact passed

/-! ### Runs of a cursor -/

/-- A cursor between two calls. -/
structure CursorInv (blob : Blob) (ws : List Window) (c : Cursor) : Prop where
  map : c.map = blob
  standing : c.hasState = true → ∃ past rest, CursorAt blob ws c past rest

theorem mappingsOf_length_le (ws : List Window) :
    (mappingsOf ws).length ≤ syncInterval * ws.length := by
  induction ws with
  | nil => exact Nat.le_refl 0
  | cons w ws ih =>
      have one : w.mappings.length ≤ syncInterval := w.few
      rw [mappingsOf] at ih ⊢
      rw [List.flatMap_cons, List.length_append, List.length_cons, Nat.mul_succ]
      omega

/-- Having arrived, the cursor answers with the abstract lookup. -/
theorem Arrived.lookup {hasState : Bool} {result : Option Cursor}
    (sorted : SortedBlob blob ws) (arrived : Arrived blob ws line col hasState result) :
    ∃ c, result = some c ∧ c.state.onLine line = lookup (mappingsOf ws) line col ∧
      CursorInv blob ws c := by
  obtain ⟨c, past, rest, isResult, standing, _, reached, stop⟩ := arrived
  refine ⟨c, isResult, ?_, standing.map, fun _ => ⟨past, rest, standing⟩⟩
  have order := sorted.sorted
  rw [standing.whole] at order ⊢
  exact (lookup_eq order reached stop).symm

/-- From where the cursor stands or is sent, it arrives. -/
theorem forward_arrives (sorted : SortedBlob blob ws)
    (standing : CursorAt blob ws c past rest)
    (reached : c.state.lessOrEqual line col = true) :
    Arrived blob ws line col c.hasState
      (c.forward line col (syncInterval * ws.length + 1)) := by
  apply forward_spec sorted standing reached
  have count := mappingsOf_length_le ws
  have whole := congrArg List.length standing.whole
  rw [List.length_append, List.length_cons] at whole
  omega

/-- A cursor moved anywhere answers as `find` does. -/
theorem moveTo_spec (sorted : SortedBlob blob ws) (inv : CursorInv blob ws c)
    (line col : Int) :
    ∃ found c', c.moveTo line col = some (found, c') ∧ find blob line col = some found ∧
      CursorInv blob ws c' := by
  have answer := find_eq_lookup sorted.encodes sorted.sorted line col
  have finish {c : Cursor} {past rest : List State}
      (standing : CursorAt blob ws c past rest)
      (reached : c.state.lessOrEqual line col = true) :
      ∃ c', (do
          let c ← c.forward line col (← c.fuel)
          return (c.state.onLine line, c)) =
        some (SourceMap.lookup (mappingsOf ws) line col, c') ∧ CursorInv blob ws c' := by
    obtain ⟨c', moved, found, inv'⟩ := (forward_arrives sorted standing reached).lookup sorted
    refine ⟨c', ?_, inv'⟩
    rw [Cursor.fuel, standing.map, sorted.encodes.syncCount]
    simp only [Option.bind_eq_bind, Option.bind_some, Option.pure_def]
    rw [moved]
    simp only [Option.bind_some, found]
  obtain ⟨isMap, _⟩ := id inv
  subst isMap
  rw [Cursor.moveTo]
  by_cases keep : c.hasState = true ∧ c.state.lessOrEqual line col = true
  · obtain ⟨past, rest, standing⟩ := inv.standing keep.1
    obtain ⟨c', moved, inv'⟩ := finish standing keep.2
    refine ⟨_, c', ?_, answer, inv'⟩
    rw [if_neg (by simp [keep.1, keep.2])]
    simp only [Option.bind_eq_bind, Option.bind_some, if_true]
    exact moved
  · rw [if_pos (by simpa [Decidable.imp_iff_not_or] using keep), Cursor.reseek]
    rcases locateWindow_spec sorted.encodes.stores sorted.sorted line col with
      ⟨located, stop⟩ | ⟨i, w, located, isWindow, reached, _⟩
    · refine ⟨none, { c with hasState := false }, ?_, ?_, rfl, fun isTrue => by
        cases isTrue⟩
      · rw [located]
        rfl
      · rw [answer, lookup_none stop]
    · obtain ⟨r, seeded, reads⟩ := sorted.encodes.reads isWindow c.reader
      have standing : CursorAt c.map ws
          { c with
            syncIdx := i
            state := w.first
            reader := r
            peek := none
            hasState := true } (mappingsOf (ws.take i)) w.rest :=
        ⟨rfl, reads, window_split isWindow⟩
      obtain ⟨c', moved, inv'⟩ := finish standing reached
      refine ⟨_, c', ?_, answer, inv'⟩
      rw [located]
      simp only [Option.bind_eq_bind, Option.bind_some]
      rw [seeded]
      exact moved

end Moves

/-- The answers of a cursor that is moved from target to target. -/
def Cursor.moveAll (c : Cursor) : List (Int × Int) → Option (List (Option Mapping))
  | [] => some []
  | (line, col) :: targets => do
      let (found, c) ← c.moveTo line col
      let more ← c.moveAll targets
      return found :: more

/-- Every move of a run answers as `find` does. -/
theorem cursor_run {blob : Blob} {ws : List Window} (sorted : SortedBlob blob ws)
    {targets : List (Int × Int)} {c : Cursor} (inv : CursorInv blob ws c) :
    ∃ answers, c.moveAll targets = some answers ∧
      targets.mapM (fun t => find blob t.1 t.2) = some answers := by
  induction targets generalizing c with
  | nil => exact ⟨[], rfl, rfl⟩
  | cons target targets ih =>
      obtain ⟨line, col⟩ := target
      obtain ⟨found, c', moved, direct, inv'⟩ := moveTo_spec sorted inv line col
      obtain ⟨answers, ran, rest⟩ := ih inv'
      refine ⟨found :: answers, ?_, ?_⟩
      · rw [Cursor.moveAll, moved]
        simp only [Option.bind_eq_bind, Option.bind_some, ran]
        rfl
      · rw [List.mapM_cons, direct, rest]
        rfl

/-! ### All stateful lookups -/

/-- A blob built from mappings, no window beginning beyond 4 GiB. -/
def Built (mappings : List State) (blob : Blob) : Prop :=
  ∃ spare calls mappingCount inputLines raw, (∀ c ∈ calls, c.Valid) ∧
    separators calls ≤ i32Max ∧ StreamFits spare .init calls ∧
    (Builder.init.run spare calls).finalize spare = some raw ∧
    blob = fillHeader raw mappingCount inputLines ∧ mappings = appended 0 calls

/-- A blob built from mappings in non-decreasing generated order. -/
def BuiltSorted (blob : Blob) : Prop := ∃ mappings, Built mappings blob ∧ Sorted mappings

theorem Built.encodes {mappings : List State} {blob : Blob} (built : Built mappings blob) :
    ∃ ws, Encodes blob ws ∧ mappingsOf ws = mappings := by
  obtain ⟨spare, calls, mappingCount, inputLines, raw, valid, lines, fits, finalized, rfl,
    rfl⟩ := built
  obtain ⟨raw', ws, finalized', encodes, same⟩ :=
    finalize_encodes spare valid lines fits mappingCount inputLines
  rw [finalized, Option.some.injEq] at finalized'
  subst finalized'
  exact ⟨ws, encodes, same⟩

theorem BuiltSorted.sorted {blob : Blob} (built : BuiltSorted blob) :
    ∃ ws, SortedBlob blob ws := by
  obtain ⟨mappings, isBuilt, isSorted⟩ := built
  obtain ⟨ws, encodes, same⟩ := isBuilt.encodes
  exact ⟨ws, encodes, same.symm ▸ isSorted⟩

/-- Whatever was looked up, invalidated, placed or moved to before, cached lookups and
cursors answer as `find` does. -/
theorem stateful_lookups_agree :
    (∀ ops, Disciplined BuiltSorted (fun _ => none) (fun _ => false) ops →
      ∃ answers, World.run ⟨fun _ => none, .empty⟩ ops = some answers ∧
        findAll (fun _ => none) ops = some answers) ∧
    ∀ blob targets, BuiltSorted blob →
      ∃ answers, (Cursor.init blob).moveAll targets = some answers ∧
        targets.mapM (fun t => find blob t.1 t.2) = some answers := by
  constructor
  · intro ops disciplined
    exact cache_run (fun blob built => BuiltSorted.sorted built) (w := ⟨fun _ => none, .empty⟩)
      (cacheInv_empty _ _) (fun _ _ isBlob => by cases isBlob) disciplined
  · intro blob targets built
    obtain ⟨ws, sorted⟩ := built.sorted
    exact cursor_run sorted ⟨rfl, fun isTrue => by cases isTrue⟩

/-- A blob of two mappings on line 0 and one on line 2. -/
def sampleBlob : Blob :=
  fillHeader (((Builder.init.run (fun _ _ => 0xAA)
    [.mapping ⟨0, 4, 0, 1, 2⟩, .mapping ⟨0, 9, 0, 1, 6⟩, .lineSeparator, .lineSeparator,
      .mapping ⟨0, 2, 1, 7, 0⟩]).finalize (fun _ _ => 0xAA)).getD []) 3 8

theorem sampleBlob_built : BuiltSorted sampleBlob := by
  have fits : StreamFits (fun _ _ => 0xAA) .init
      [.mapping ⟨0, 4, 0, 1, 2⟩, .mapping ⟨0, 9, 0, 1, 6⟩, .lineSeparator, .lineSeparator,
        .mapping ⟨0, 2, 1, 7, 0⟩] := streamFits_of_few _ (by decide)
  obtain ⟨raw, _, finalized, _⟩ := finalize_encodes (fun _ _ => 0xAA)
    (by simp [Call.Valid, IsField]) (by decide) fits 3 8
  refine ⟨_, ⟨_, _, 3, 8, raw, by simp [Call.Valid, IsField], by decide, fits, finalized,
    ?_, rfl⟩, ?_⟩
  · rw [sampleBlob, finalized]
    rfl
  · simp [appended, Sorted, State.NotAfter]

/-- Lookups before and after the address is reused, and a cursor that moves back. -/
theorem stateful_lookups_agree_sample :
    (∃ answers, World.run ⟨fun _ => none, .empty⟩
        [.place 7 sampleBlob, .lookup 7 0 5, .lookup 7 0 20, .invalidate 7,
          .place 7 sampleBlob, .lookup 7 2 2] = some answers ∧
      findAll (fun _ => none)
        [.place 7 sampleBlob, .lookup 7 0 5, .lookup 7 0 20, .invalidate 7,
          .place 7 sampleBlob, .lookup 7 2 2] = some answers) ∧
    ∃ answers, (Cursor.init sampleBlob).moveAll [(0, 20), (2, 5), (0, 5)] = some answers ∧
      [(0, 20), (2, 5), (0, 5)].mapM (fun t => find sampleBlob t.1 t.2) = some answers :=
  ⟨stateful_lookups_agree.1 _
      (by simp [Disciplined, sampleBlob_built, Function.update]),
    stateful_lookups_agree.2 sampleBlob _ sampleBlob_built⟩

/-! ### Beyond 4 GiB -/

/-- Mappings of line 0 whose columns grow by one and whose original columns take
`steps`. -/
def steppedMappings (column original : Int) : List Int → List State
  | [] => []
  | step :: steps =>
      ⟨0, column, 0, 0, original + step⟩ ::
        steppedMappings (column + 1) (original + step) steps

/-- Columns that go back: 10 to the right, 5 to the left, 25 to the right. -/
def strayDeltas : List Delta :=
  [⟨0, 10, 0, 10, 0⟩, ⟨0, -5, 0, -5, 0⟩, ⟨0, 25, 0, 25, 0⟩]

/-- A window of sorted mappings whose original columns spell the bytes of another
window, at offset 95. -/
def strayWindow : Window where
  first := ⟨0, 0, 0, 0, 1000⟩
  rest := steppedMappings 1 1000
    ((windowBytes strayDeltas).map (fun b => zigzagDecode b.toNat) ++
      List.replicate 10 8192 ++ List.replicate 18 64)
  few := by decide +kernel

/-- The last mapping of the stray window. -/
def strayState : State := ⟨0, 63, 0, 0, 84094⟩

def strayFill : Window := ⟨strayState, List.replicate 63 strayState, by decide⟩

/-- The window of one mapping that is read at offset 95. -/
def strayLast : Window := ⟨strayState, [], Builder.init.pendingFits⟩

/-- What is read there instead. -/
def strayRest : List State :=
  [⟨0, 73, 0, 0, 84104⟩, ⟨0, 68, 0, 0, 84099⟩, ⟨0, 93, 0, 0, 84124⟩]

/-- A stray window and `n` full windows behind it. -/
def strayWindows (n : Nat) : List Window := strayWindow :: List.replicate n strayFill

def strayMappings (n : Nat) : List State := mappingsOf (strayWindows n) ++ [strayState]

theorem strayWindow_length : strayWindow.bytes.length = 196 := by decide +kernel

theorem strayFill_length : strayFill.bytes.length = 95 := by decide +kernel

/-- What offset 95 of the stray window reads as. -/
theorem strayWindow_at : At strayWindow.bytes 95 (windowBytes strayDeltas) := by
  have split : strayWindow.bytes = strayWindow.bytes.take 95 ++ windowBytes strayDeltas ++
      strayWindow.bytes.drop 130 := by
    decide +kernel
  have length : (strayWindow.bytes.take 95).length = 95 := by decide +kernel
  have here := At.of_append (strayWindow.bytes.take 95) (windowBytes strayDeltas)
    (strayWindow.bytes.drop 130)
  rwa [← split, length] at here

theorem strayFill_mappings : strayFill.mappings = List.replicate 64 strayState := rfl

theorem mem_strayMappings {n : Nat} {s : State} (member : s ∈ strayMappings n) :
    s ∈ strayWindow.mappings ∨ s = strayState := by
  rcases List.mem_append.mp member with inWindows | isLast
  · obtain ⟨w, inList, isMapping⟩ := List.mem_flatMap.mp inWindows
    cases inList with
    | head => exact .inl isMapping
    | tail _ inFill =>
        rw [(List.mem_replicate.mp inFill).2, strayFill_mappings] at isMapping
        exact .inr (List.mem_replicate.mp isMapping).2
  · exact .inr (List.mem_singleton.mp isLast)

theorem strayWindow_fields : ∀ s ∈ strayWindow.mappings, s.generatedLine = 0 ∧
    (0 ≤ s.generatedColumn ∧ s.generatedColumn ≤ 63) ∧ s.sourceIndex = 0 ∧
      s.originalLine = 0 ∧ 0 ≤ s.originalColumn ∧ s.originalColumn ≤ 84094 := by
  decide +kernel

theorem strayMappings_fields {n : Nat} {s : State} (member : s ∈ strayMappings n) :
    s.generatedLine = 0 ∧ (0 ≤ s.generatedColumn ∧ s.generatedColumn ≤ 63) ∧
      s.sourceIndex = 0 ∧ s.originalLine = 0 ∧
      0 ≤ s.originalColumn ∧ s.originalColumn ≤ 84094 := by
  rcases mem_strayMappings member with inFirst | rfl
  · exact strayWindow_fields s inFirst
  · decide

theorem strayMappings_valid {n : Nat} {s : State} (member : s ∈ strayMappings n) :
    s.Valid := by
  obtain ⟨line, column, source, origLine, origColumn⟩ := strayMappings_fields member
  constructor <;> unfold IsField <;> omega

/-- The mappings are sorted: the first window is, and its last mapping is repeated. -/
theorem strayMappings_sorted (n : Nat) : Sorted (strayMappings n) := by
  have window : Sorted strayWindow.mappings := by
    unfold Sorted State.NotAfter
    decide +kernel
  have repeated : strayMappings n =
      strayWindow.mappings ++ List.replicate (64 * n + 1) strayState := by
    rw [strayMappings, strayWindows, mappingsOf, List.flatMap_cons, List.flatMap_replicate,
      strayFill_mappings, List.flatten_replicate_replicate, List.append_assoc,
      Nat.mul_comm, List.replicate_succ']
  rw [repeated]
  apply List.pairwise_append.mpr
  refine ⟨window, ?_, ?_⟩
  · apply List.pairwise_replicate.mpr
    exact .inr (.inr ⟨rfl, Int.le_refl _⟩)
  · intro a inWindow b inFill
    rw [(List.mem_replicate.mp inFill).2]
    obtain ⟨line, column, _⟩ := strayWindow_fields a inWindow
    exact .inr ⟨line, column.2⟩

/-- The builder flushes the windows and keeps the last mapping. -/
theorem stray_finalize (n : Nat) (few : headerSize + (n + 2) * 24 < 2 ^ 32) :
    (Builder.init.run (fun _ _ => 0) ((strayMappings n).map .mapping)).finalize
        (fun _ _ => 0) =
      some (List.replicate 24 0 ++ finalizedTail
        (entriesOf 0 (strayWindows n ++ [strayLast]))
        (streamOf (strayWindows n ++ [strayLast]))) := by
  have onLine : ∀ s ∈ strayMappings n, s.generatedLine = 0 := fun s member =>
    (strayMappings_fields member).1
  have full : ∀ w ∈ strayWindows n, w.mappings.length = syncInterval := by
    intro w member
    cases member with
    | head => decide +kernel
    | tail _ inFill =>
        rw [(List.mem_replicate.mp inFill).2]
        rfl
  obtain ⟨at_, pending⟩ := run_windows (fun _ _ => 0) onLine full
    (show [strayState].length < syncInterval by decide) rfl
  obtain ⟨ws, _, finalized, _, isLast, _⟩ := finalize_windows at_ (fun _ _ => 0)
  have length : (strayWindows n ++ [strayLast]).length = n + 2 := by
    simp [strayWindows]
  rw [isLast strayLast pending, length, if_pos ⟨few, by simp only [headerSize] at few; omega⟩]
    at finalized
  exact finalized

/-- The last entry says 95, and what stands there is read as its window. -/
theorem stray_seed {n : Nat} {blob : Blob}
    (stores : Stores blob (entriesOf 0 (strayWindows n ++ [strayLast]))
      (streamOf (strayWindows n ++ [strayLast])))
    (cut : (196 + 95 * n) % 2 ^ 32 = 95) (r : WindowReader) :
    ∃ r', seedWindow blob r (n + 1) = some (strayState, r') ∧
      Reads (paddedStream (strayWindows n ++ [strayLast])) r' strayState strayRest := by
  have isLast : (strayWindows n ++ [strayLast])[n + 1]? = some strayLast := by
    simp [strayWindows]
  have start : startOf (strayWindows n ++ [strayLast]) (n + 1) = 196 + 95 * n := by
    have same : List.replicate n strayFill <+: List.replicate n strayFill ++ [strayLast] :=
      List.prefix_append _ _
    rw [strayWindows, List.cons_append, startOf_succ, strayWindow_length,
      startOf_replicate same, strayFill_length]
  have entry := stores.syncEntry _ _ (entriesOf_getElem? 0 isLast)
  rw [Nat.zero_add, start, Window.entry, cut] at entry
  have here : At (paddedStream (strayWindows n ++ [strayLast])) 95
      (windowBytes strayDeltas) := by
    have inStream : paddedStream (strayWindows n ++ [strayLast]) =
        strayWindow.bytes ++ (streamOf (List.replicate n strayFill ++ [strayLast]) ++
          List.replicate streamTailPad 0) := by
      rw [paddedStream, strayWindows, List.cons_append, streamOf, List.flatMap_cons,
        List.append_assoc]
      rfl
    rw [inStream]
    exact strayWindow_at.extend _
  have isDeltas : deltas strayState strayRest = strayDeltas := by decide
  have fields : ∀ s ∈ strayState :: strayRest, s.Valid := by
    intro s member
    simp only [strayRest, strayState, List.mem_cons, List.not_mem_nil, or_false] at member
    rcases member with rfl | rfl | rfl | rfl <;> constructor <;> simp [IsField]
  have fits := deltas_fit (fields _ (List.mem_cons_self ..))
    fun s member => fields s (List.mem_cons_of_mem _ member)
  rw [isDeltas] at fits
  obtain ⟨r', parsed, ready⟩ := parse_ready r (by decide) fits here
  rw [← isDeltas] at ready
  refine ⟨r', ?_, ready, fields _ (List.mem_cons_self ..), fun s member =>
    fields s (List.mem_cons_of_mem _ member)⟩
  rw [seedWindow, entry, stores.stream]
  simp only [Option.bind_eq_bind, Option.bind_some]
  rw [show streamOf (strayWindows n ++ [strayLast]) ++ List.replicate streamTailPad 0 =
    paddedStream (strayWindows n ++ [strayLast]) from rfl, parsed]
  rfl

/-- Every column from 63 on is looked for in the last window. -/
theorem stray_locate {n : Nat} {blob : Blob} {bytes : List UInt8}
    (stores : Stores blob (entriesOf 0 (strayWindows n ++ [strayLast])) bytes) {col : Int}
    (behind : 63 ≤ col) : locateWindow blob 0 col = some (some (n + 1)) := by
  have whole : mappingsOf (strayWindows n ++ [strayLast]) = strayMappings n :=
    mappingsOf_append _ _
  have reached {s : State} (member : s ∈ strayMappings n) :
      s.lessOrEqual 0 col = true := by
    obtain ⟨line, column, _⟩ := strayMappings_fields member
    simp only [State.lessOrEqual, Bool.or_eq_true, Bool.and_eq_true, decide_eq_true_eq]
    omega
  rcases locateWindow_spec stores (whole ▸ strayMappings_sorted n) 0 col with
    ⟨_, stop⟩ | ⟨i, w, located, isWindow, _, stop⟩
  · refine absurd (reached ?_) (stop strayWindow.first rfl)
    rw [← whole]
    exact mem_mappingsOf (List.mem_cons_self ..) (List.mem_cons_self ..)
  · have length : (strayWindows n ++ [strayLast]).length = n + 2 := by
      simp [strayWindows]
    have inside := (List.getElem?_eq_some_iff.mp isWindow).1
    rw [length] at inside
    have atEnd : ¬i + 1 < n + 2 := by
      intro before
      rw [← length] at before
      have isNext := List.getElem?_eq_getElem before
      have head := mappingsOf_drop_head (strayWindows n ++ [strayLast]) (i + 1)
      rw [isNext] at head
      refine absurd (reached ?_) (stop _ head)
      rw [← whole]
      exact mem_mappingsOf (List.getElem_mem before) (List.mem_cons_self ..)
    rw [located, show i = n + 1 by omega]

/-- `find` stops before the first column that is too far. -/
theorem stray_find {n : Nat} {blob : Blob}
    (stores : Stores blob (entriesOf 0 (strayWindows n ++ [strayLast]))
      (streamOf (strayWindows n ++ [strayLast])))
    (cut : (196 + 95 * n) % 2 ^ 32 = 95) : find blob 0 70 = some (strayState.onLine 0) := by
  obtain ⟨r, seeded, reads⟩ := stray_seed stores cut .dangling
  have beyond : ¬State.lessOrEqual ⟨0, 73, 0, 0, 84104⟩ 0 70 = true := by decide
  have stops := findLoop_stop reads (show 0 < syncInterval by decide) beyond
  rw [find, stray_locate stores (by decide)]
  simp only [Option.bind_eq_bind, Option.bind_some, seeded, stores.stream]
  exact (congrArg (Option.bind · _) stops).trans rfl

/-- One turn that goes on. -/
theorem Cursor.forward_pass {c c' : Cursor} {x : State} {line col : Int} {fuel : Nat}
    (noPeek : c.peek = none) (advanced : c.advanceOne = some (some x, c'))
    (passed : x.lessOrEqual line col = true) :
    c.forward line col (fuel + 1) = forward line col fuel { c' with state := x } := by
  rw [forward, noPeek, if_neg (by simp)]
  simp only [advanced, Option.bind_eq_bind, Option.bind_some]
  rw [if_pos passed]

/-- The turn that stops, with the mapping it read put aside. -/
theorem Cursor.forward_stop {c c' : Cursor} {x : State} {line col : Int} {fuel : Nat}
    (noPeek : c.peek = none) (advanced : c.advanceOne = some (some x, c'))
    (beyond : ¬x.lessOrEqual line col = true) :
    c.forward line col (fuel + 1) = some { c' with peek := some x } := by
  rw [forward, noPeek, if_neg (by simp)]
  simp only [advanced, Option.bind_eq_bind, Option.bind_some]
  rw [if_neg beyond]

/-- A cursor with a mapping put aside beyond the target stays where it is. -/
theorem Cursor.moveTo_stays {c : Cursor} {x : State} {line col : Int} {n : Nat}
    (has : c.hasState = true) (reached : c.state.lessOrEqual line col = true)
    (isPeek : c.peek = some x) (beyond : ¬x.lessOrEqual line col = true)
    (count : c.map.syncCount = some n) :
    c.moveTo line col = some (c.state.onLine line, c) := by
  rw [moveTo, if_neg (by simp [has, reached])]
  simp only [Option.bind_eq_bind, Option.bind_some, if_true]
  rw [fuel, count]
  simp only [Option.bind_eq_bind, Option.bind_some, Option.pure_def]
  rw [forward, isPeek, if_pos (by simp [beyond])]
  rfl

/-- The cursor passes the column that lies ahead of its place, and stays there. -/
theorem stray_moves {n : Nat} {blob : Blob}
    (stores : Stores blob (entriesOf 0 (strayWindows n ++ [strayLast]))
      (streamOf (strayWindows n ++ [strayLast])))
    (cut : (196 + 95 * n) % 2 ^ 32 = 95) :
    ∃ c, (Cursor.init blob).moveTo 0 80 = some (State.onLine ⟨0, 68, 0, 0, 84099⟩ 0, c) ∧
      c.moveTo 0 70 = some (State.onLine ⟨0, 68, 0, 0, 84099⟩ 0, c) := by
  have stream : blob.stream = some (paddedStream (strayWindows n ++ [strayLast])) :=
    stores.stream
  have count : blob.syncCount = some (n + 2) := by
    have length : (strayWindows n ++ [strayLast]).length = n + 2 := by
      simp [strayWindows]
    rw [stores.syncCount, entriesOf_length, length]
  obtain ⟨r0, seeded, reads⟩ := stray_seed stores cut .dangling
  obtain ⟨r1, first, reads⟩ := advanceOne_reads
    (c := ⟨blob, strayState, none, r0, n + 1, true⟩) stream rfl reads
  obtain ⟨r2, second, reads⟩ := advanceOne_reads
    (c := ⟨blob, ⟨0, 73, 0, 0, 84104⟩, none, r1, n + 1, true⟩) stream rfl reads
  obtain ⟨r3, third, _⟩ := advanceOne_reads
    (c := ⟨blob, ⟨0, 68, 0, 0, 84099⟩, none, r2, n + 1, true⟩) stream rfl reads
  have reached : State.lessOrEqual ⟨0, 68, 0, 0, 84099⟩ 0 70 = true := by decide
  refine ⟨⟨blob, ⟨0, 68, 0, 0, 84099⟩, some ⟨0, 93, 0, 0, 84124⟩, r3, n + 1, true⟩, ?_,
    Cursor.moveTo_stays rfl reached rfl (by decide) count⟩
  have goes : Cursor.forward 0 80 (64 * n + 126 + 3)
      ⟨blob, strayState, none, r0, n + 1, true⟩ =
      some ⟨blob, ⟨0, 68, 0, 0, 84099⟩, some ⟨0, 93, 0, 0, 84124⟩, r3, n + 1, true⟩ := by
    rw [Cursor.forward_pass rfl first (by decide)]
    rw [Cursor.forward_pass rfl second (by decide)]
    rw [Cursor.forward_stop rfl third (by decide)]
  have sought : (Cursor.init blob).reseek 0 80 =
      some (true, ⟨blob, strayState, none, r0, n + 1, true⟩) := by
    rw [Cursor.reseek, Cursor.init, stray_locate stores (by decide)]
    simp only [Option.bind_eq_bind, Option.bind_some, seeded]
    rfl
  have turns : Cursor.fuel ⟨blob, strayState, none, r0, n + 1, true⟩ =
      some (64 * n + 126 + 3) := by
    rw [Cursor.fuel, count]
    rfl
  rw [Cursor.moveTo, if_pos (by simp [Cursor.init]), sought]
  simp only [Option.bind_eq_bind, Option.bind_some, if_true, turns, goes]
  rfl

/-- After the two moves the cursor and `find` answer differently. -/
theorem stray_disagrees {n : Nat} {blob : Blob}
    (stores : Stores blob (entriesOf 0 (strayWindows n ++ [strayLast]))
      (streamOf (strayWindows n ++ [strayLast])))
    (cut : (196 + 95 * n) % 2 ^ 32 = 95) :
    (Cursor.init blob).moveAll [(0, 80), (0, 70)] ≠
      [(0, 80), (0, 70)].mapM (fun t => find blob t.1 t.2) := by
  obtain ⟨c, first, second⟩ := stray_moves stores cut
  intro same
  simp only [Cursor.moveAll, first, second, List.mapM_cons, List.mapM_nil,
    stray_find stores cut, Option.bind_eq_bind, Option.bind_some, Option.pure_def] at same
  cases found : find blob 0 80 with
  | none =>
      rw [found] at same
      cases same
  | some m =>
      rw [found] at same
      simp only [Option.bind_some, Option.some.injEq, List.cons.injEq, and_true] at same
      exact absurd same.2 (by decide)

/-- The calls of the stray mappings are what the builder may be given. -/
theorem stray_calls (n : Nat) :
    (∀ c ∈ (strayMappings n).map Call.mapping, c.Valid) ∧
      separators ((strayMappings n).map .mapping) ≤ i32Max ∧
      Sorted (appended 0 ((strayMappings n).map .mapping)) := by
  have isAppended : appended 0 ((strayMappings n).map .mapping) = strayMappings n :=
    appended_onLine fun s member => (strayMappings_fields member).1
  refine ⟨?_, ?_, ?_⟩
  · intro call member
    obtain ⟨s, isMapping, rfl⟩ := List.mem_map.mp member
    obtain ⟨_, column, source, origLine, origColumn⟩ := strayMappings_valid isMapping
    exact ⟨column, source, origLine, origColumn⟩
  · rw [separators_mappings]
    decide
  · rw [isAppended]
    exact strayMappings_sorted n

theorem stray_stores (n : Nat) (few : headerSize + (n + 2) * 24 < 2 ^ 32)
    (mappingCount inputLines : Nat) :
    Stores (fillHeader (List.replicate 24 0 ++ finalizedTail
        (entriesOf 0 (strayWindows n ++ [strayLast]))
        (streamOf (strayWindows n ++ [strayLast]))) mappingCount inputLines)
      (entriesOf 0 (strayWindows n ++ [strayLast]))
      (streamOf (strayWindows n ++ [strayLast])) := by
  apply windows_stores
  · intro s member
    rw [mappingsOf_append] at member
    exact strayMappings_valid (n := n) member
  · rw [List.length_append, strayWindows, List.length_cons, List.length_replicate]
    exact few

/-- With the last window beyond 4 GiB a cursor and `find` give two answers. -/
theorem stray_window_disagrees :
    ∃ calls raw, (∀ c ∈ calls, c.Valid) ∧ separators calls ≤ i32Max ∧
      Sorted (appended 0 calls) ∧
      (Builder.init.run (fun _ _ => 0) calls).finalize (fun _ _ => 0) = some raw ∧
      (Cursor.init (fillHeader raw 2893451649 1)).moveAll [(0, 80), (0, 70)] ≠
        [(0, 80), (0, 70)].mapM (fun t => find (fillHeader raw 2893451649 1) t.1 t.2) := by
  have few : headerSize + (45210181 + 2) * 24 < 2 ^ 32 := by decide
  obtain ⟨valid, lines, sorted⟩ := stray_calls 45210181
  exact ⟨_, _, valid, lines, sorted, stray_finalize 45210181 few,
    stray_disagrees (stray_stores 45210181 few 2893451649 1) (by decide)⟩

end Bunx.SourceMap
