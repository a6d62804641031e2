/-
Module: Bunx.SourceMap.RoundTrip
Purpose: The mappings appended to a builder are what its finalized blob decodes to,
  as long as no window begins beyond 4 GiB; beyond, the offset is cut and the last
  window is lost.
Trusted boundary: none
Main exports:
  appended, StreamFits, Builds, run_builds, finalize_encodes, decode_finalize,
  streamFits_of_few, zeroWindows_lost
-/
import Bunx.SourceMap.Windows

namespace Bunx.SourceMap

open Lib

/-! ### Runs of a builder -/

/-- The mappings a sequence of calls appends; `line` separators came before. -/
def appended : Int → List Call → List State
  | _, [] => []
  | line, .lineSeparator :: calls => appended (line + 1) calls
  | line, .mapping current :: calls =>
      { current with generatedLine := line } :: appended line calls

def separators : List Call → Int
  | [] => 0
  | .lineSeparator :: calls => separators calls + 1
  | .mapping _ :: calls => separators calls

/-- The fields a call passes are non-negative `i32` values. -/
def Call.Valid : Call → Prop
  | .lineSeparator => True
  | .mapping current =>
      IsField current.generatedColumn ∧ IsField current.sourceIndex ∧
        IsField current.originalLine ∧ IsField current.originalColumn

/-- While mappings are pending, the window they will form begins below 4 GiB: the
assertion of `flush_window`. -/
def StreamFits (spare : Spare) (b : Builder) (calls : List Call) : Prop :=
  ∀ before, before <+: calls → (b.run spare before).pending ≠ [] →
    (b.run spare before).winStream.length < 2 ^ 32

theorem separators_nonneg (calls : List Call) : 0 ≤ separators calls := by
  induction calls with
  | nil => exact Int.le_refl 0
  | cons call calls ih =>
      cases call with
      | lineSeparator =>
          simp only [separators]
          omega
      | mapping current => exact ih

/-- Appended mappings are valid while the lines stay in range. -/
theorem appended_valid {line : Int} {calls : List Call} (nonneg : 0 ≤ line)
    (room : line + separators calls ≤ i32Max) (valid : ∀ c ∈ calls, c.Valid) :
    ∀ s ∈ appended line calls, s.Valid := by
  induction calls generalizing line with
  | nil =>
      intro s member
      cases member
  | cons call calls ih =>
      have later : ∀ c ∈ calls, c.Valid := fun c member =>
        valid c (List.mem_cons_of_mem _ member)
      have behind := separators_nonneg calls
      cases call with
      | lineSeparator =>
          simp only [separators] at room
          exact ih (by omega) (by omega) later
      | mapping current =>
          simp only [separators, i32Max] at room
          obtain ⟨column, source, origLine, origColumn⟩ :=
            valid (.mapping current) (List.mem_cons_self ..)
          intro s member
          cases member with
          | head => exact ⟨⟨nonneg, by show line < 2 ^ 31; omega⟩, column, source,
              origLine, origColumn⟩
          | tail _ inRest => exact ih nonneg room later s inRest

/-- The builder has flushed these windows. -/
structure Builds (b : Builder) (ws : List Window) : Prop where
  entries : b.syncEntries = entriesOf 0 ws
  stream : b.winStream = streamOf ws

theorem entriesOf_append (start : Nat) (ws : List Window) (w : Window) :
    entriesOf start (ws ++ [w]) =
      entriesOf start ws ++ [w.entry (start + (streamOf ws).length)] := by
  induction ws generalizing start with
  | nil => rfl
  | cons w' ws ih =>
      simp only [List.cons_append, entriesOf, ih, streamOf,
        List.flatMap_cons, List.length_append, Nat.add_assoc]

theorem streamOf_append (ws : List Window) (w : Window) :
    streamOf (ws ++ [w]) = streamOf ws ++ w.bytes := by
  simp [streamOf]

theorem mappingsOf_append (ws : List Window) (w : Window) :
    mappingsOf (ws ++ [w]) = mappingsOf ws ++ w.mappings := by
  simp [mappingsOf]

theorem StartsFit.append {ws : List Window} (fits : StartsFit ws) (w : Window)
    (start : (streamOf ws).length < 2 ^ 32) : StartsFit (ws ++ [w]) := by
  intro i inside
  rw [List.length_append, List.length_singleton] at inside
  rcases Nat.lt_succ_iff_lt_or_eq.mp inside with before | rfl
  · have kept : startOf (ws ++ [w]) i = startOf ws i := by
      rw [startOf, startOf, List.take_append_of_le_length (Nat.le_of_lt before)]
    rw [kept]
    exact fits i before
  · rw [startOf, List.take_left]
    exact start

/-- Flushing adds one window. -/
theorem Builds.flush {b : Builder} {ws : List Window} (builds : Builds b ws)
    (spare : Spare) (w : Window) :
    Builds (b.flush spare w.first w.rest) (ws ++ [w]) := by
  constructor
  · rw [entriesOf_append, Nat.zero_add, ← builds.stream, ← builds.entries]
    rfl
  · rw [streamOf_append, ← builds.stream, Window.bytes,
      ← writeWindow_eq (spare b.winStream.length) w.deltas_few]
    rfl

/-- A builder between two calls: what was flushed, full windows all, what is
pending, and the line of the next mapping. -/
structure BuilderAt (b : Builder) (ws : List Window) (line : Int) : Prop where
  builds : Builds b ws
  full : ∀ w ∈ ws, w.mappings.length = syncInterval
  isLine : b.generatedLine + b.pendingGeneratedLineDelta = line
  lineNonneg : 0 ≤ b.generatedLine
  deltaNonneg : 0 ≤ b.pendingGeneratedLineDelta

theorem builderAt_init : BuilderAt .init [] 0 where
  builds := ⟨rfl, rfl⟩
  full := fun _ member => by cases member
  isLine := rfl
  lineNonneg := Int.le_refl 0
  deltaNonneg := Int.le_refl 0

/-- A separator moves the line of the next mapping. -/
theorem BuilderAt.lineSeparator {b : Builder} {ws : List Window} {line : Int}
    (at_ : BuilderAt b ws line) (room : line + 1 ≤ i32Max) :
    BuilderAt b.appendLineSeparator ws (line + 1) := by
  have isLine := at_.isLine
  have lineNonneg := at_.lineNonneg
  have deltaNonneg := at_.deltaNonneg
  have delta : wrap (b.pendingGeneratedLineDelta + 1) = b.pendingGeneratedLineDelta + 1 := by
    apply wrap_of_inI32
    simp only [i32Max] at room
    constructor <;> omega
  constructor
  · exact ⟨at_.builds.entries, at_.builds.stream⟩
  · exact at_.full
  · simp only [Builder.appendLineSeparator, delta]
    omega
  · exact lineNonneg
  · simp only [Builder.appendLineSeparator, delta]
    omega

/-- What is appended becomes pending, or fills a window. -/
theorem appendMapping_eq {b : Builder} {ws : List Window} {line : Int}
    (at_ : BuilderAt b ws line) (room : line ≤ i32Max) (spare : Spare)
    (current : SourceMapState) :
    ∃ b', BuilderAt b' ws line ∧ b'.pending = [] ∧
      b'.winStream = b.winStream ∧
      (if b.pending.length + 1 = syncInterval then
        b.appendMapping spare current =
          b'.flushWindow spare (b.pending ++ [{ current with generatedLine := line }])
      else
        (b.appendMapping spare current).pending =
            b.pending ++ [{ current with generatedLine := line }] ∧
          BuilderAt (b.appendMapping spare current) ws line) := by
  have isLine := at_.isLine
  have lineNonneg := at_.lineNonneg
  have deltaNonneg := at_.deltaNonneg
  have value : wrap (b.generatedLine + b.pendingGeneratedLineDelta) = line := by
    rw [isLine]
    apply wrap_of_inI32
    simp only [i32Max] at room
    constructor <;> omega
  refine ⟨{ b with
    generatedLine := line
    pendingGeneratedLineDelta := 0
    count := (b.count + 1) % 2 ^ 32
    pending := []
    pendingFits := by decide }, ?_, rfl, rfl, ?_⟩
  · exact ⟨⟨at_.builds.entries, at_.builds.stream⟩, at_.full, Int.add_zero line,
      by show 0 ≤ line; omega, Int.le_refl 0⟩
  · simp only [Builder.appendMapping, value, List.length_append, List.length_singleton]
    split
    · rfl
    · refine ⟨rfl, ⟨at_.builds.entries, at_.builds.stream⟩, at_.full, Int.add_zero line,
        ?_, Int.le_refl 0⟩
      show 0 ≤ line
      omega

/-- One appended mapping comes behind those before it. -/
theorem BuilderAt.mapping {b : Builder} {ws : List Window} {line : Int}
    (at_ : BuilderAt b ws line) (room : line ≤ i32Max) (spare : Spare)
    (current : SourceMapState) :
    ∃ ws', BuilderAt (b.appendMapping spare current) ws' line ∧
      mappingsOf ws' ++ (b.appendMapping spare current).pending =
        mappingsOf ws ++ b.pending ++ [{ current with generatedLine := line }] ∧
      (StartsFit ws → (b.pending ≠ [] → b.winStream.length < 2 ^ 32) →
        StartsFit ws') := by
  obtain ⟨b', behind, _, sameStream, result⟩ := appendMapping_eq at_ room spare current
  by_cases full : b.pending.length + 1 = syncInterval
  · rw [if_pos full] at result
    -- 63 mappings were pending, so the window begins with one of them
    obtain ⟨first, rest, pending⟩ : ∃ first rest, b.pending = first :: rest := by
      cases isPending : b.pending with
      | nil =>
          rw [isPending] at full
          exact absurd full (by decide)
      | cons first rest => exact ⟨first, rest, rfl⟩
    rw [pending] at result full ⊢
    simp only [List.length_cons, syncInterval] at full
    let w : Window := ⟨first, rest ++ [{ current with generatedLine := line }], by
      simp only [List.length_append, List.length_singleton, syncInterval]
      omega⟩
    have flushed : b.appendMapping spare current = b'.flush spare w.first w.rest := result
    have wMappings : w.mappings.length = syncInterval := by
      simp only [w, Window.mappings, List.length_cons, List.length_append,
        List.length_nil, syncInterval]
      omega
    refine ⟨ws ++ [w], ?_, ?_, ?_⟩
    · rw [flushed]
      constructor
      · exact behind.builds.flush spare w
      · intro w' member
        rcases List.mem_append.mp member with before | isLast
        · exact at_.full w' before
        · rw [List.mem_singleton.mp isLast]
          exact wMappings
      · exact behind.isLine
      · exact behind.lineNonneg
      · exact behind.deltaNonneg
    · rw [flushed, mappingsOf_append]
      simp [Builder.flush, Window.mappings, w]
    · intro fits below
      apply fits.append
      rw [← at_.builds.stream]
      exact below (List.cons_ne_nil _ _)
  · rw [if_neg full] at result
    refine ⟨ws, result.2, ?_, fun fits _ => fits⟩
    rw [result.1, List.append_assoc]

/-- A run of calls flushes and leaves pending exactly the appended mappings. -/
theorem run_builds (spare : Spare) {calls : List Call} {b : Builder} {ws : List Window}
    {line : Int} (at_ : BuilderAt b ws line)
    (room : line + separators calls ≤ i32Max) :
    ∃ ws', BuilderAt (b.run spare calls) ws' (line + separators calls) ∧
      mappingsOf ws' ++ (b.run spare calls).pending =
        mappingsOf ws ++ b.pending ++ appended line calls ∧
      (StartsFit ws → StreamFits spare b calls → StartsFit ws') := by
  induction calls generalizing b ws line with
  | nil =>
      refine ⟨ws, ?_, ?_, fun fits _ => fits⟩
      · rw [separators, Int.add_zero]
        exact at_
      · rw [appended, List.append_nil]
        rfl
  | cons call calls ih =>
      have behind := separators_nonneg calls
      have fitsLater (fits : StreamFits spare b (call :: calls)) :
          StreamFits spare (b.call spare call) calls := by
        intro before isStart
        exact fits (call :: before) (List.cons_prefix_cons.mpr ⟨rfl, isStart⟩)
      cases call with
      | lineSeparator =>
          simp only [separators] at room ⊢
          obtain ⟨ws', result, same, fits⟩ :=
            ih (at_.lineSeparator (by omega)) (by omega)
          refine ⟨ws', ?_, same, fun start stream => fits start (fitsLater stream)⟩
          rw [show line + (separators calls + 1) = line + 1 + separators calls by omega]
          exact result
      | mapping current =>
          simp only [separators] at room ⊢
          obtain ⟨ws₁, next, sameNext, fitsNext⟩ := at_.mapping (by omega) spare current
          obtain ⟨ws', result, same, fits⟩ := ih next room
          refine ⟨ws', result, ?_, fun start stream => ?_⟩
          · rw [sameNext, List.append_assoc (mappingsOf ws ++ b.pending)] at same
            exact same
          · apply fits (fitsNext start _) (fitsLater stream)
            exact stream [] (List.nil_prefix)

/-! ### The round trip -/

theorem Window.eq_of_mappings {w w' : Window} (same : w.mappings = w'.mappings) :
    w = w' := by
  cases w with
  | mk first rest few =>
      cases w' with
      | mk first' rest' few' =>
          cases same
          rfl

/-- Finalizing flushes what is pending and lays out the windows. -/
theorem finalize_windows {b : Builder} {ws : List Window} {line : Int}
    (at_ : BuilderAt b ws line) (spare : Spare) :
    ∃ ws', mappingsOf ws' = mappingsOf ws ++ b.pending ∧
      b.finalize spare =
        (if headerSize + ws'.length * 24 < 2 ^ 32 ∧ ws'.length < 2 ^ 32 then
          some (List.replicate 24 0 ++ finalizedTail (entriesOf 0 ws') (streamOf ws'))
        else none) ∧
      (b.pending = [] → ws' = ws) ∧ (∀ w, b.pending = w.mappings → ws' = ws ++ [w]) ∧
      (StartsFit ws → (b.pending ≠ [] → b.winStream.length < 2 ^ 32) →
        StartsFit ws') := by
  have laidOut {b' : Builder} {ws' : List Window} (builds : Builds b' ws')
      (flushed : b.flushWindow spare b.pending = b') : b.finalize spare =
        (if headerSize + ws'.length * 24 < 2 ^ 32 ∧ ws'.length < 2 ^ 32 then
          some (List.replicate 24 0 ++ finalizedTail (entriesOf 0 ws') (streamOf ws'))
        else none) := by
    simp only [Builder.finalize, flushed, finalizedTail, builds.entries, builds.stream,
      entriesOf_length, List.append_assoc]
  cases isPending : b.pending with
  | nil =>
      refine ⟨ws, (List.append_nil _).symm, laidOut at_.builds ?_, fun _ => rfl,
        fun _ same => absurd same (List.cons_ne_nil _ _).symm, fun fits _ => fits⟩
      rw [isPending]
      rfl
  | cons first rest =>
      have few := b.pendingFits
      rw [isPending, List.length_cons] at few
      let w : Window := ⟨first, rest, Nat.lt_of_succ_lt few⟩
      refine ⟨ws ++ [w], mappingsOf_append ws w, laidOut (at_.builds.flush spare w) ?_,
        fun none => absurd none (List.cons_ne_nil _ _), ?_, ?_⟩
      · rw [isPending]
        rfl
      · intro w' same
        have isLast : w = w' := Window.eq_of_mappings same
        rw [isLast]
      · intro fits below
        apply fits.append
        rw [← at_.builds.stream]
        exact below (List.cons_ne_nil _ _)

theorem streamOf_length_le (ws : List Window) :
    (streamOf ws).length ≤ 2048 * ws.length := by
  induction ws with
  | nil => exact Nat.le_refl 0
  | cons w ws ih =>
      have one : w.bytes.length ≤ 2048 := windowBytes_length_le w.deltas_few
      rw [streamOf, List.flatMap_cons, List.length_append, List.length_cons]
      rw [streamOf] at ih
      omega

/-- The blob of windows of valid mappings stores their entries and bytes. -/
theorem windows_stores {ws : List Window} (valid : ∀ s ∈ mappingsOf ws, s.Valid)
    (few : headerSize + ws.length * 24 < 2 ^ 32) (mappingCount inputLines : Nat) :
    Stores (fillHeader (List.replicate 24 0 ++
        finalizedTail (entriesOf 0 ws) (streamOf ws)) mappingCount inputLines)
      (entriesOf 0 ws) (streamOf ws) := by
  have length := streamOf_length_le ws
  simp only [headerSize] at few
  apply finalized_stores (entriesOf_fit valid)
  · rw [entriesOf_length]
    exact few
  · omega

/-- A finalized blob holds the appended mappings. -/
theorem finalize_encodes (spare : Spare) {calls : List Call}
    (valid : ∀ c ∈ calls, c.Valid) (lines : separators calls ≤ i32Max)
    (fits : StreamFits spare .init calls) (mappingCount inputLines : Nat) :
    ∃ blob ws, (Builder.init.run spare calls).finalize spare = some blob ∧
      Encodes (fillHeader blob mappingCount inputLines) ws ∧
      mappingsOf ws = appended 0 calls := by
  have room : 0 + separators calls ≤ i32Max := by omega
  obtain ⟨ws, at_, same, starts⟩ := run_builds spare builderAt_init room
  obtain ⟨ws', mappings, finalized, _, _, starts'⟩ := finalize_windows at_ spare
  have noWindows : StartsFit [] := by
    intro i inside
    cases inside
  have startsFit := starts' (starts noWindows fits) (fits calls (List.prefix_refl calls))
  have few := startsFit.few
  have all : mappingsOf ws' = appended 0 calls := by
    rw [mappings, same]
    rfl
  have statesValid : ∀ s ∈ mappingsOf ws', s.Valid := by
    rw [all]
    exact appended_valid (Int.le_refl 0) room valid
  have tableFits : headerSize + ws'.length * 24 < 2 ^ 32 := by
    simp only [headerSize]
    omega
  rw [if_pos ⟨tableFits, by omega⟩] at finalized
  exact ⟨_, ws', finalized, ⟨windows_stores statesValid tableFits _ _, statesValid,
    startsFit⟩, all⟩

/-- Decoding a finalized blob yields the appended mappings in order. -/
theorem decode_finalize (spare : Spare) (calls : List Call)
    (mappingCount inputLines : Nat) (valid : ∀ c ∈ calls, c.Valid)
    (lines : separators calls ≤ i32Max) (fits : StreamFits spare .init calls) :
    ∃ blob, (Builder.init.run spare calls).finalize spare = some blob ∧
      decode (fillHeader blob mappingCount inputLines) = some (appended 0 calls) := by
  obtain ⟨blob, ws, finalized, encodes, same⟩ :=
    finalize_encodes spare valid lines fits mappingCount inputLines
  refine ⟨blob, finalized, ?_⟩
  rw [encodes.decode, same]

theorem appended_length_le (line : Int) (calls : List Call) :
    (appended line calls).length ≤ calls.length := by
  induction calls generalizing line with
  | nil => exact Nat.le_refl 0
  | cons call calls ih =>
      cases call with
      | lineSeparator =>
          exact Nat.le_succ_of_le (ih (line + 1))
      | mapping current => exact Nat.succ_le_succ (ih line)

theorem separators_le (calls : List Call) : separators calls ≤ calls.length := by
  induction calls with
  | nil => exact Int.le_refl 0
  | cons call calls ih =>
      cases call with
      | lineSeparator =>
          simp only [separators, List.length_cons]
          omega
      | mapping current =>
          simp only [separators, List.length_cons]
          omega

theorem mappingsOf_length {ws : List Window}
    (full : ∀ w ∈ ws, w.mappings.length = syncInterval) :
    (mappingsOf ws).length = syncInterval * ws.length := by
  induction ws with
  | nil => rfl
  | cons w ws ih =>
      have rest := ih fun w' member => full w' (List.mem_cons_of_mem _ member)
      have first := full w (List.mem_cons_self ..)
      rw [mappingsOf, List.flatMap_cons, List.length_append, first, List.length_cons,
        Nat.mul_succ, Nat.add_comm]
      exact congrArg (· + syncInterval) rest

/-- Fewer than 2^27 calls never fill 4 GiB. -/
theorem streamFits_of_few (spare : Spare) {calls : List Call}
    (few : calls.length < 2 ^ 27) : StreamFits spare .init calls := by
  intro before isStart _
  have shorter := isStart.length_le
  have lines := separators_le before
  have room : 0 + separators before ≤ i32Max := by
    simp only [i32Max]
    omega
  obtain ⟨ws, at_, same, _⟩ := run_builds spare builderAt_init room
  have count := congrArg List.length same
  have atMost := appended_length_le 0 before
  have none : mappingsOf [] ++ Builder.init.pending ++ appended 0 before =
      appended 0 before := rfl
  have stream := streamOf_length_le ws
  rw [none, List.length_append, mappingsOf_length at_.full, syncInterval] at count
  rw [at_.builds.stream]
  omega

/-- Two mappings on lines 0 and 3. -/
theorem decode_finalize_twoLines :
    ∃ blob, (Builder.init.run (fun _ _ => 0xAA)
        [.mapping ⟨0, 4, 0, 1, 2⟩, .lineSeparator, .lineSeparator, .lineSeparator,
          .mapping ⟨0, 2, 1, 7, 0⟩]).finalize (fun _ _ => 0xAA) = some blob ∧
      decode (fillHeader blob 2 8) = some [⟨0, 4, 0, 1, 2⟩, ⟨3, 2, 1, 7, 0⟩] :=
  decode_finalize (fun _ _ => 0xAA)
    [.mapping ⟨0, 4, 0, 1, 2⟩, .lineSeparator, .lineSeparator, .lineSeparator,
      .mapping ⟨0, 2, 1, 7, 0⟩] 2 8
    (by simp [Call.Valid, IsField]) (by decide) (streamFits_of_few _ (by decide))

/-! ### Beyond 4 GiB -/

theorem rest_done {bytes : List UInt8} {fuel : Nat} {r : WindowReader} {state : State}
    (positive : 0 < fuel) (done : r.done = true) : r.rest bytes fuel state = some [] := by
  obtain ⟨fuel, rfl⟩ : ∃ n, fuel = n + 1 := ⟨fuel - 1, by omega⟩
  rw [WindowReader.rest, if_pos done]

theorem rest_length_lt {bytes : List UInt8} {fuel : Nat} {r : WindowReader}
    {state : State} {more : List State} (read : r.rest bytes fuel state = some more) :
    more.length < fuel := by
  induction fuel generalizing r state more with
  | zero => cases read
  | succ fuel ih =>
      rw [WindowReader.rest] at read
      split at read
      · cases read
        exact Nat.succ_pos fuel
      · obtain ⟨⟨r', state'⟩, _, read⟩ := Option.bind_eq_some_iff.mp read
        obtain ⟨later, isLater, read⟩ := Option.bind_eq_some_iff.mp read
        cases read
        exact Nat.succ_lt_succ (ih isLater)

/-- No window decodes to more than 64 mappings. -/
theorem decodeWindow_length_le {blob : Blob} {i : Nat} {mappings : List State}
    (decoded : decodeWindow blob i = some mappings) :
    mappings.length ≤ syncInterval := by
  obtain ⟨⟨state, r⟩, _, decoded⟩ := Option.bind_eq_some_iff.mp decoded
  obtain ⟨bytes, _, decoded⟩ := Option.bind_eq_some_iff.mp decoded
  obtain ⟨more, isMore, decoded⟩ := Option.bind_eq_some_iff.mp decoded
  cases decoded
  exact rest_length_lt isMore

theorem mapM_flatten_length_le {α β : Type} {f : α → Option (List β)} {n : Nat}
    (short : ∀ x ys, f x = some ys → ys.length ≤ n) {xs : List α} {all : List (List β)}
    (mapped : xs.mapM f = some all) : all.flatten.length ≤ n * xs.length := by
  induction xs generalizing all with
  | nil =>
      cases mapped
      exact Nat.zero_le _
  | cons x xs ih =>
      rw [List.mapM_cons] at mapped
      obtain ⟨ys, isYs, mapped⟩ := Option.bind_eq_some_iff.mp mapped
      obtain ⟨rest, isRest, mapped⟩ := Option.bind_eq_some_iff.mp mapped
      cases mapped
      have one := short x ys isYs
      have others := ih isRest
      rw [List.flatten_cons, List.length_append, List.length_cons, Nat.mul_succ]
      omega

/-- A blob whose last window is cut to its first mapping decodes to too few. -/
theorem decode_length_of_cut {blob : Blob} {n : Nat} {s : State} {all : List State}
    (syncCount : blob.syncCount = some (n + 1)) (cut : decodeWindow blob n = some [s])
    (decoded : decode blob = some all) : all.length ≤ syncInterval * n + 1 := by
  rw [decode, syncCount] at decoded
  simp only [Option.bind_eq_bind, Option.bind_some, List.range_succ] at decoded
  obtain ⟨windows, mapped, decoded⟩ := Option.bind_eq_some_iff.mp decoded
  cases decoded
  rw [List.mapM_append] at mapped
  obtain ⟨before, isBefore, mapped⟩ := Option.bind_eq_some_iff.mp mapped
  obtain ⟨last, isLast, mapped⟩ := Option.bind_eq_some_iff.mp mapped
  cases mapped
  have short := mapM_flatten_length_le (fun _ _ => decodeWindow_length_le) isBefore
  have single : last = [[s]] := by
    rw [List.mapM_cons, cut] at isLast
    cases isLast
    rfl
  rw [List.length_range] at short
  rw [single, List.flatten_append, List.length_append]
  exact Nat.add_le_add short (Nat.le_refl 1)

/-- A full window of mappings that are all zero: 95 bytes. -/
def zeroWindow : Window := ⟨.zero, List.replicate 63 .zero, by decide⟩

/-- Zero mappings that fill `n` windows. -/
def zeroCalls (n : Nat) : List Call := List.replicate (syncInterval * n) (.mapping .zero)

theorem zeroWindow_length : zeroWindow.bytes.length = 95 := by decide +kernel

theorem State.zero_valid : State.zero.Valid := by
  constructor <;> simp [State.zero, IsField]

theorem zeroCalls_valid (n : Nat) : ∀ c ∈ zeroCalls n, c.Valid := by
  intro c member
  rw [(List.mem_replicate.mp member).2]
  simp [Call.Valid, State.zero, IsField]

/-- Mappings on one line, one call each. -/
theorem appended_onLine {line : Int} {mappings : List State}
    (onLine : ∀ s ∈ mappings, s.generatedLine = line) :
    appended line (mappings.map .mapping) = mappings := by
  induction mappings with
  | nil => rfl
  | cons s mappings ih =>
      have first := onLine s (List.mem_cons_self ..)
      have rest := ih fun x member => onLine x (List.mem_cons_of_mem _ member)
      rw [List.map_cons, appended, rest, ← first]

theorem separators_mappings (mappings : List State) :
    separators (mappings.map .mapping) = 0 := by
  induction mappings with
  | nil => rfl
  | cons s mappings ih => exact ih

theorem appended_zero (n : Nat) :
    appended 0 (List.replicate n (.mapping .zero)) = List.replicate n State.zero := by
  rw [← List.map_replicate]
  apply appended_onLine
  intro s member
  rw [(List.mem_replicate.mp member).2]
  rfl

theorem separators_zero (n : Nat) :
    separators (List.replicate n (.mapping .zero)) = 0 := by
  rw [← List.map_replicate]
  exact separators_mappings _

/-- Full windows and a shorter remainder are told by the mappings. -/
theorem windows_unique {ws ws' : List Window} {p p' : List State}
    (full : ∀ w ∈ ws, w.mappings.length = syncInterval)
    (full' : ∀ w ∈ ws', w.mappings.length = syncInterval)
    (few : p.length < syncInterval) (few' : p'.length < syncInterval)
    (same : mappingsOf ws ++ p = mappingsOf ws' ++ p') : ws = ws' ∧ p = p' := by
  have length := congrArg List.length same
  rw [List.length_append, List.length_append, mappingsOf_length full,
    mappingsOf_length full'] at length
  induction ws generalizing ws' with
  | nil =>
      cases ws' with
      | nil => exact ⟨rfl, same⟩
      | cons w' ws' =>
          simp only [syncInterval, List.length_nil, List.length_cons] at *
          omega
  | cons w ws ih =>
      cases ws' with
      | nil =>
          simp only [syncInterval, List.length_nil, List.length_cons] at *
          omega
      | cons w' ws' =>
          have whole : w.mappings ++ (mappingsOf ws ++ p) =
              w'.mappings ++ (mappingsOf ws' ++ p') := by
            simpa [mappingsOf] using same
          have sameLength : w.mappings.length = w'.mappings.length := by
            rw [full w (List.mem_cons_self ..), full' w' (List.mem_cons_self ..)]
          obtain ⟨sameFirst, sameRest⟩ := List.append_inj whole sameLength
          obtain ⟨sameWindows, sameRemainder⟩ := ih
            (fun x member => full x (List.mem_cons_of_mem _ member))
            (fun x member => full' x (List.mem_cons_of_mem _ member)) sameRest
            (by simp only [syncInterval, List.length_cons] at length ⊢; omega)
          exact ⟨by rw [Window.eq_of_mappings sameFirst, sameWindows], sameRemainder⟩

/-- A run whose mappings are known leaves known windows and a known remainder. -/
theorem run_windows (spare : Spare) {mappings p : List State} {ws : List Window}
    (onLine : ∀ s ∈ mappings, s.generatedLine = 0)
    (full : ∀ w ∈ ws, w.mappings.length = syncInterval) (few : p.length < syncInterval)
    (same : mappings = mappingsOf ws ++ p) :
    BuilderAt (Builder.init.run spare (mappings.map .mapping)) ws 0 ∧
      (Builder.init.run spare (mappings.map .mapping)).pending = p := by
  have noSeparators := separators_mappings mappings
  have room : 0 + separators (mappings.map .mapping) ≤ i32Max := by
    rw [noSeparators]
    decide
  obtain ⟨ws', at_, all, _⟩ := run_builds spare builderAt_init room
  rw [noSeparators] at at_
  have whole : mappingsOf ws' ++
      (Builder.init.run spare (mappings.map .mapping)).pending = mappingsOf ws ++ p := by
    rw [all, appended_onLine onLine, ← same]
    rfl
  obtain ⟨sameWindows, samePending⟩ := windows_unique at_.full full
    (Builder.init.run spare (mappings.map .mapping)).pendingFits few whole
  exact ⟨sameWindows ▸ at_, samePending⟩

theorem mappingsOf_zeros (n : Nat) : mappingsOf (List.replicate n zeroWindow) =
    List.replicate (syncInterval * n) State.zero := by
  have one : zeroWindow.mappings = List.replicate 64 State.zero := rfl
  rw [mappingsOf, List.flatMap_replicate, one, List.flatten_replicate_replicate,
    Nat.mul_comm, syncInterval]

/-- The builder turns them into `n` such windows. -/
theorem zeroCalls_run (spare : Spare) (n : Nat) :
    BuilderAt (Builder.init.run spare (zeroCalls n)) (List.replicate n zeroWindow) 0 ∧
      (Builder.init.run spare (zeroCalls n)).pending = [] := by
  rw [zeroCalls, ← List.map_replicate]
  apply run_windows
  · intro s member
    rw [(List.mem_replicate.mp member).2]
    rfl
  · intro w member
    rw [(List.mem_replicate.mp member).2]
    rfl
  · decide
  · rw [mappingsOf_zeros, List.append_nil]

/-- Offset 89 of two such windows reads as a window of no mappings. -/
theorem parse_zero {bytes : List UInt8} (r : WindowReader)
    (here : At bytes 0 (zeroWindow.bytes ++ zeroWindow.bytes)) :
    ∃ r', r.parse bytes 89 = some r' ∧ r'.done = true := by
  have split : zeroWindow.bytes ++ zeroWindow.bytes =
      (zeroWindow.bytes ++ zeroWindow.bytes).take 89 ++
        ([0] ++ [0] ++ leBytes 2 0 ++ leBytes 2 0 ++ leBytes 2 64) ++
        (zeroWindow.bytes ++ zeroWindow.bytes).drop 97 := by
    decide +kernel
  have length : ((zeroWindow.bytes ++ zeroWindow.bytes).take 89).length = 89 := by
    decide +kernel
  rw [split] at here
  have fields := here.left.right
  rw [length] at fields
  have count : bytes[89]? = some 0 := fields.left.left.left.left.head
  have flags : bytes[90]? = some 0 := fields.left.left.left.right.head
  have genColLen : readLe bytes 91 2 = some 0 :=
    readLe_leBytes (by decide) (by decide) fields.left.left.right
  have origLineLen : readLe bytes 93 2 = some 0 :=
    readLe_leBytes (by decide) (by decide) fields.left.right
  have origColLen : readLe bytes 95 2 = some 64 :=
    readLe_leBytes (by decide) (by decide) fields.right
  refine ⟨{ r with
    base := 89, count := 0, flags := 0, deltaIdx := 0, genColPos := 121
    origLineExcPos := 121, origColExcPos := 121, genLineExcNextIdx := 0xFF }, ?_, rfl⟩
  have noLines : ¬(0 : UInt8) &&& flagHasGenLineExceptions ≠ 0 := by decide
  have noSources : ¬(0 : UInt8) &&& flagHasSrcIdx ≠ 0 := by decide
  rw [WindowReader.parse]
  simp only [Option.bind_eq_bind, count, Option.bind_some, flags, genColLen, origLineLen,
    origColLen, WindowReader.parseGenLineExc, if_neg noLines, if_neg noSources]
  rfl

/-- A window behind zero windows whose offset is cut to 89 decodes to its first
mapping alone. -/
theorem decodeWindow_cut {blob : Blob} {ws : List Window} {n : Nat} {w : Window}
    (stores : Stores blob (entriesOf 0 ws) (streamOf ws))
    (zeros : [zeroWindow, zeroWindow] <+: ws) (isLast : ws[n]? = some w)
    (cut : startOf ws n % 2 ^ 32 = 89) : decodeWindow blob n = some [w.first] := by
  obtain ⟨more, rfl⟩ := zeros
  have here : At (streamOf ([zeroWindow, zeroWindow] ++ more) ++
      List.replicate streamTailPad 0) 0 (zeroWindow.bytes ++ zeroWindow.bytes) := by
    apply At.extend
    refine ⟨streamOf more, ?_⟩
    simp [streamOf]
  obtain ⟨r, parsed, done⟩ := parse_zero .dangling here
  have entry := stores.syncEntry n _ (entriesOf_getElem? 0 isLast)
  rw [Nat.zero_add] at entry
  have seeded : seedWindow blob .dangling n = some (w.first, r) := by
    rw [seedWindow, entry, stores.stream]
    simp only [Option.bind_eq_bind, Option.bind_some, Window.entry, cut, parsed]
    rfl
  rw [decodeWindow, seeded, stores.stream]
  simp only [Option.bind_eq_bind, Option.bind_some, rest_done (show 0 < syncInterval by decide)
    done]
  rfl

/-- Windows that are all the same take the same bytes each. -/
theorem startOf_replicate {w : Window} {k : Nat} {ws : List Window}
    (same : List.replicate k w <+: ws) : startOf ws k = w.bytes.length * k := by
  obtain ⟨more, rfl⟩ := same
  have front : (List.replicate k w ++ more).take k = List.replicate k w :=
    List.take_left' (List.length_replicate ..)
  rw [startOf, front]
  clear front
  induction k with
  | zero => rfl
  | succ k ih =>
      rw [List.replicate_succ, streamOf, List.flatMap_cons, List.length_append,
        Nat.mul_succ]
      rw [streamOf] at ih
      omega

theorem replicate_isPrefix {α : Type} {a : α} {k n : Nat} (few : k ≤ n) :
    List.replicate k a <+: List.replicate n a := by
  refine ⟨List.replicate (n - k) a, ?_⟩
  rw [List.replicate_append_replicate, Nat.add_sub_cancel' few]

/-- 45210184 windows of zeros: the last begins at `2 ^ 32 + 89`, its entry says 89, and
all but one of its mappings are lost. -/
theorem zeroWindows_lost :
    (∀ c ∈ zeroCalls 45210184, c.Valid) ∧
      separators (zeroCalls 45210184) ≤ i32Max ∧
      ∃ blob, (Builder.init.run (fun _ _ => 0) (zeroCalls 45210184)).finalize
          (fun _ _ => 0) = some blob ∧
        decode (fillHeader blob 2893451776 1) ≠ some (appended 0 (zeroCalls 45210184)) := by
  have noSeparators : separators (zeroCalls 45210184) = 0 := separators_zero _
  refine ⟨zeroCalls_valid _, by rw [noSeparators]; decide, ?_⟩
  obtain ⟨at_, noPending⟩ := zeroCalls_run (fun _ _ => 0) 45210184
  obtain ⟨ws, _, finalized, unchanged, _, _⟩ := finalize_windows at_ (fun _ _ => 0)
  rw [unchanged noPending, List.length_replicate, if_pos (by decide)] at finalized
  refine ⟨_, finalized, ?_⟩
  have valid : ∀ s ∈ mappingsOf (List.replicate 45210184 zeroWindow), s.Valid := by
    intro s member
    rw [mappingsOf_zeros] at member
    rw [(List.mem_replicate.mp member).2]
    exact State.zero_valid
  have stores := windows_stores valid (by rw [List.length_replicate]; decide) 2893451776 1
  have isLast : (List.replicate 45210184 zeroWindow)[45210183]? = some zeroWindow :=
    List.getElem?_replicate_of_lt (by decide)
  have start : startOf (List.replicate 45210184 zeroWindow) 45210183 % 2 ^ 32 = 89 := by
    rw [startOf_replicate (replicate_isPrefix (by decide)), zeroWindow_length]
    rfl
  have cut := decodeWindow_cut stores (replicate_isPrefix (k := 2) (by decide)) isLast start
  have syncCount := stores.syncCount
  rw [entriesOf_length, List.length_replicate] at syncCount
  intro decoded
  have short := decode_length_of_cut syncCount cut decoded
  rw [zeroCalls, appended_zero, List.length_replicate] at short
  exact absurd short (by decide)

end Bunx.SourceMap
