/-
Module: Bunx.SourceMap.WindowRead
Purpose: A reader takes the deltas of a window back out of its bytes, and every
  read stays inside them.
Trusted boundary: none
Main exports: Delta.applyTo, Ready, Ready.next, parse_ready, rest_ready
-/
import Bunx.SourceMap.WindowBytes
import Bunx.SourceMap.Reader

namespace Bunx.SourceMap

open Lib

/-! ### Deltas -/

/-- The mapping a delta leads to. -/
def Delta.applyTo (d : Delta) (s : State) : State :=
  { WindowReader.advance s d.genLine d.genCol d.origLine d.origCol with
    sourceIndex := wrap (s.sourceIndex + d.srcIdx) }

/-- Every field is an `i32`. -/
structure Delta.Fits (d : Delta) : Prop where
  genLine : InI32 d.genLine
  genCol : InI32 d.genCol
  origLine : InI32 d.origLine
  origCol : InI32 d.origCol
  srcIdx : InI32 d.srcIdx

/-- A mapping whose fields are non-negative `i32` values. -/
structure State.Valid (s : State) : Prop where
  generatedLine : IsField s.generatedLine
  generatedColumn : IsField s.generatedColumn
  sourceIndex : IsField s.sourceIndex
  originalLine : IsField s.originalLine
  originalColumn : IsField s.originalColumn

theorem Delta.between_fits {prev cur : State} (prevValid : prev.Valid)
    (curValid : cur.Valid) : (Delta.between prev cur).Fits := by
  have difference {v w : Int} (vField : IsField v) (wField : IsField w) :
      InI32 (wrap (v - w)) := by
    rw [wrap_of_inI32 (vField.sub wField)]
    exact vField.sub wField
  constructor
  · exact difference curValid.generatedLine prevValid.generatedLine
  · simp only [Delta.between]
    split
    · exact curValid.generatedColumn.inI32
    · exact difference curValid.generatedColumn prevValid.generatedColumn
  · exact difference curValid.originalLine prevValid.originalLine
  · exact difference curValid.originalColumn prevValid.originalColumn
  · exact difference curValid.sourceIndex prevValid.sourceIndex

/-- Adding a difference back gives the field. -/
theorem wrap_add_sub {v w : Int} (vField : IsField v) (wField : IsField w) :
    wrap (w + wrap (v - w)) = v := by
  rw [wrap_of_inI32 (vField.sub wField), show w + (v - w) = v by omega,
    wrap_of_inI32 vField.inI32]

/-- Applying the delta between two mappings leads from the one to the other. -/
theorem Delta.between_applyTo {prev cur : State} (prevValid : prev.Valid)
    (curValid : cur.Valid) : (Delta.between prev cur).applyTo prev = cur := by
  have line := curValid.generatedLine.sub prevValid.generatedLine
  have sameLine := wrap_add_sub curValid.generatedLine prevValid.generatedLine
  have sameCol := wrap_add_sub curValid.generatedColumn prevValid.generatedColumn
  have sameSource := wrap_add_sub curValid.sourceIndex prevValid.sourceIndex
  have sameOrigLine := wrap_add_sub curValid.originalLine prevValid.originalLine
  have sameOrigCol := wrap_add_sub curValid.originalColumn prevValid.originalColumn
  cases prev with
  | mk gl gc si ol oc =>
      cases cur with
      | mk gl' gc' si' ol' oc' =>
          simp only [Delta.applyTo, WindowReader.advance, Delta.between] at *
          rw [wrap_of_inI32 line] at sameLine ⊢
          simp only [State.mk.injEq, sameOrigLine, sameOrigCol, sameSource, and_true]
          by_cases newLine : gl' - gl ≠ 0
          · simp only [if_pos newLine, sameLine, and_self]
          · simp only [if_neg newLine, sameCol, and_true]
            omega

/-- The mappings behind `s` that a list of deltas leads through. -/
def applyAll : State → List Delta → List State
  | _, [] => []
  | s, d :: ds => d.applyTo s :: applyAll (d.applyTo s) ds

theorem applyAll_deltas {first : State} {rest : List State} (firstValid : first.Valid)
    (valid : ∀ s ∈ rest, s.Valid) : applyAll first (deltas first rest) = rest := by
  induction rest generalizing first with
  | nil => rfl
  | cons cur rest ih =>
      have curValid := valid cur (List.mem_cons_self ..)
      have restValid : ∀ s ∈ rest, s.Valid := fun s member =>
        valid s (List.mem_cons_of_mem _ member)
      rw [deltas, applyAll, Delta.between_applyTo firstValid curValid,
        ih curValid restValid]

theorem deltas_fit {first : State} {rest : List State} (firstValid : first.Valid)
    (valid : ∀ s ∈ rest, s.Valid) : ∀ d ∈ deltas first rest, d.Fits := by
  induction rest generalizing first with
  | nil =>
      intro d member
      cases member
  | cons cur rest ih =>
      have curValid := valid cur (List.mem_cons_self ..)
      intro d member
      cases member with
      | head => exact Delta.between_fits firstValid curValid
      | tail _ later =>
          apply ih curValid _ d later
          intro s inRest
          exact valid s (List.mem_cons_of_mem _ inRest)

@[simp] theorem deltas_length (first : State) (rest : List State) :
    (deltas first rest).length = rest.length := by
  induction rest generalizing first with
  | nil => rfl
  | cons cur rest ih => simp [deltas, ih]

/-! ### A reader in a window -/

/-- The line exceptions from index `k` on, or the reader looks for none. -/
def LinesReady (bytes : List UInt8) (r : WindowReader) (k : Nat) (ds : List Delta) :
    Prop :=
  (r.genLineExcNextIdx = 0xFF ∧ ∀ d ∈ ds, d.lineException = false) ∨
    (r.flags ≠ 0 ∧ At bytes r.genLineExcPos (laneBytes .genLine k ds ++ [0xFF]) ∧
      ∃ b, bytes[r.genLineExcPos]? = some b ∧ r.genLineExcNextIdx = b.toNat)

/-- The source indices from index `k` on, or none differ. -/
def SourcesReady (bytes : List UInt8) (r : WindowReader) (k : Nat) (ds : List Delta) :
    Prop :=
  (r.flags &&& flagHasSrcIdx = 0 ∧ ∀ d ∈ ds, d.srcIdx = 0) ∨
    (r.flags &&& flagHasSrcIdx ≠ 0 ∧
      At bytes r.srcIdxExcPos (laneBytes .srcIdx k ds) ∧
      ∀ i d, ds[i]? = some d →
        bitAt bytes r.srcIdxMask (k + i) = some (decide (d.srcIdx = 0)))

/-- A reader with the deltas `ds` still in front of it. -/
structure Ready (bytes : List UInt8) (r : WindowReader) (ds : List Delta) : Prop where
  count : r.count = r.deltaIdx + ds.length + 1
  small : r.count ≤ 64
  fits : ∀ d ∈ ds, d.Fits
  genLineBit : ∀ i d, ds[i]? = some d →
    bitAt bytes (r.base + 8) (r.deltaIdx + i) = some (decide (1 ≤ d.genLine))
  origLineBit : ∀ i d, ds[i]? = some d →
    bitAt bytes (r.base + 16) (r.deltaIdx + i) = some (decide (d.origLine = d.genLine))
  origColBit : ∀ i d, ds[i]? = some d →
    bitAt bytes (r.base + 24) (r.deltaIdx + i) = some (decide (d.origCol = d.genCol))
  genCol : At bytes r.genColPos (laneBytes .genCol r.deltaIdx ds)
  origLine : At bytes r.origLineExcPos (laneBytes .origLine r.deltaIdx ds)
  origCol : At bytes r.origColExcPos (laneBytes .origCol r.deltaIdx ds)
  lines : LinesReady bytes r r.deltaIdx ds
  sources : SourcesReady bytes r r.deltaIdx ds

theorem Ready.done_iff {bytes : List UInt8} {r : WindowReader} {ds : List Delta}
    (ready : Ready bytes r ds) : r.done = true ↔ ds = [] := by
  rw [WindowReader.done, decide_eq_true_iff, ready.count, ← List.length_eq_zero_iff]
  omega

/-- A value that is left out where its mask bit says so is read back. -/
theorem readUnless_eq {bytes more : List UInt8} {pos : Nat} {v : Int} (value : Int)
    {c : Prop} [Decidable c] (inside : InI32 v)
    (here : At bytes pos ((if c then [] else writeVarint v) ++ more)) :
    WindowReader.readUnless bytes (decide c) value pos =
      some (if c then value else v, pos + (if c then [] else writeVarint v).length) := by
  by_cases equal : c
  · simp [WindowReader.readUnless, equal]
  · rw [if_neg equal] at here
    simp [WindowReader.readUnless, equal, readVarint_writeVarint inside here.left]

/-- The next line exception lies at or behind the reader, or is the terminator. -/
theorem genLine_head (k : Nat) (ds : List Delta) :
    ∃ b rest, laneBytes .genLine k ds ++ [0xFF] = b :: rest ∧
      (b = 0xFF ∨ ∃ i, i < ds.length ∧ b = UInt8.ofNat (k + i)) := by
  induction ds generalizing k with
  | nil => exact ⟨0xFF, [], rfl, .inl rfl⟩
  | cons d ds ih =>
      by_cases line : d.lineException = true
      · refine ⟨UInt8.ofNat k, writeVarint d.genLine ++
          (laneBytes .genLine (k + 1) ds ++ [0xFF]), ?_, .inr ⟨0, ?_, rfl⟩⟩
        · simp [laneBytes, Lane.bytes, line]
        · exact Nat.succ_pos _
      · obtain ⟨b, rest, same, position⟩ := ih (k := k + 1)
        refine ⟨b, rest, ?_, ?_⟩
        · rw [← same]
          simp [laneBytes, Lane.bytes, line]
        · rcases position with terminator | ⟨i, before, isIndex⟩
          · exact .inl terminator
          · refine .inr ⟨i + 1, ?_, ?_⟩
            · exact Nat.succ_lt_succ before
            · rw [isIndex]
              congr 1
              omega

/-- Without an exception the mask bit says it all. -/
theorem Delta.genLine_of_regular {d : Delta} (regular : d.lineException = false) :
    (if 1 ≤ d.genLine then 1 else 0) = d.genLine := by
  simp only [Delta.lineException, decide_eq_false_iff_not, not_or, Int.not_lt] at regular
  split <;> omega

/-- A window's first bytes of line exceptions tell the next index. -/
theorem LinesReady.of_at {bytes : List UInt8} {r : WindowReader} {k pos : Nat}
    {ds : List Delta} (rare : r.flags ≠ 0)
    (here : At bytes pos (laneBytes .genLine k ds ++ [0xFF])) :
    ∃ b, bytes[pos]? = some b ∧ LinesReady bytes
      { r with genLineExcPos := pos, genLineExcNextIdx := b.toNat } k ds := by
  obtain ⟨b, rest, same, _⟩ := genLine_head k ds
  have first : bytes[pos]? = some b := by
    rw [same] at here
    exact here.head
  exact ⟨b, first, .inr ⟨rare, here, b, first, rfl⟩⟩

section Step

variable {bytes : List UInt8} {r : WindowReader} {k : Nat} {d : Delta} {ds : List Delta}

/-- The exceptions supply the line difference the mask bit does not hold. -/
theorem LinesReady.next (ready : LinesReady bytes r k (d :: ds)) (fits : d.Fits)
    (small : k + ds.length + 1 < 64)
    (lineEq : bitAt bytes (r.base + 16) k = some (decide (d.origLine = d.genLine))) :
    ∃ pos idx, WindowReader.nextGenLineExc bytes r k (if 1 ≤ d.genLine then 1 else 0)
        (if d.origLine = d.genLine then (if 1 ≤ d.genLine then 1 else 0)
          else d.origLine) =
          some ({ r with genLineExcPos := pos, genLineExcNextIdx := idx },
            d.genLine, d.origLine) ∧
      LinesReady bytes { r with genLineExcPos := pos, genLineExcNextIdx := idx }
        (k + 1) ds := by
  have regularCase (regular : d.lineException = false) (other : r.genLineExcNextIdx ≠ k) :
      WindowReader.nextGenLineExc bytes r k (if 1 ≤ d.genLine then 1 else 0)
        (if d.origLine = d.genLine then (if 1 ≤ d.genLine then 1 else 0)
          else d.origLine) = some (r, d.genLine, d.origLine) := by
    rw [WindowReader.nextGenLineExc, if_neg other, Delta.genLine_of_regular regular]
    by_cases same : d.origLine = d.genLine
    · rw [if_pos same, same]
    · rw [if_neg same]
  rcases ready with ⟨noMore, none⟩ | ⟨rare, here, b, first, isNext⟩
  · refine ⟨r.genLineExcPos, r.genLineExcNextIdx, ?_, .inl ⟨noMore, ?_⟩⟩
    · apply regularCase (none d (List.mem_cons_self ..))
      omega
    · intro d' member
      exact none d' (List.mem_cons_of_mem _ member)
  · by_cases line : d.lineException = true
    · have exception : At bytes r.genLineExcPos (UInt8.ofNat k ::
          (writeVarint d.genLine ++ (laneBytes .genLine (k + 1) ds ++ [0xFF]))) := by
        simpa [laneBytes, Lane.bytes, line] using here
      have index : r.genLineExcNextIdx = k := by
        have found := exception.head
        rw [first, Option.some.injEq] at found
        rw [isNext, found]
        exact byte_toNat (by omega)
      have value := readVarint_writeVarint fits.genLine exception.tail.left
      obtain ⟨b', first', later⟩ := LinesReady.of_at (r := r) rare exception.tail.right
      refine ⟨_, b'.toNat, ?_, later⟩
      rw [WindowReader.nextGenLineExc, if_pos index, value]
      simp only [Option.bind_eq_bind, Option.bind_some, lineEq, first',
        decide_eq_true_eq, Option.some.injEq, Prod.mk.injEq, true_and]
      by_cases same : d.origLine = d.genLine
      · rw [if_pos same, same]
      · rw [if_neg same, if_neg same]
    · have regular : d.lineException = false := by simpa using line
      have same : laneBytes .genLine k (d :: ds) = laneBytes .genLine (k + 1) ds := by
        simp [laneBytes, Lane.bytes, regular]
      rw [same] at here
      refine ⟨r.genLineExcPos, r.genLineExcNextIdx, ?_,
        .inr ⟨rare, here, b, first, isNext⟩⟩
      apply regularCase regular
      obtain ⟨b', rest, split, position⟩ := genLine_head (k + 1) ds
      rw [split] at here
      have found := here.head
      rw [first, Option.some.injEq] at found
      subst found
      rw [isNext]
      rcases position with terminator | ⟨i, before, isIndex⟩
      · rw [terminator, show (0xFF : UInt8).toNat = 255 from rfl]
        omega
      · rw [isIndex, byte_toNat (by omega)]
        omega

/-- The source index moves by the delta's difference. -/
theorem SourcesReady.next (ready : SourcesReady bytes r k (d :: ds)) (fits : d.Fits)
    {state : State} (inside : InI32 state.sourceIndex) :
    ∃ pos, WindowReader.nextSrcIdx bytes r k state =
        some ({ r with srcIdxExcPos := pos },
          { state with sourceIndex := wrap (state.sourceIndex + d.srcIdx) }) ∧
      SourcesReady bytes { r with srcIdxExcPos := pos } (k + 1) ds := by
  have unchanged (zero : d.srcIdx = 0) :
      { state with sourceIndex := wrap (state.sourceIndex + d.srcIdx) } = state := by
    rw [zero, Int.add_zero, wrap_of_inI32 inside]
  rcases ready with ⟨flag, none⟩ | ⟨flag, here, bits⟩
  · refine ⟨r.srcIdxExcPos, ?_, .inl ⟨flag, ?_⟩⟩
    · have notSet : ¬r.flags &&& flagHasSrcIdx ≠ 0 := fun set => set flag
      rw [WindowReader.nextSrcIdx, if_neg notSet,
        unchanged (none d (List.mem_cons_self ..))]
    · intro d' member
      exact none d' (List.mem_cons_of_mem _ member)
  · have bit := bits 0 d rfl
    have laterBits : ∀ i d', ds[i]? = some d' →
        bitAt bytes r.srcIdxMask (k + 1 + i) = some (decide (d'.srcIdx = 0)) := by
      intro i d' isDelta
      have later := bits (i + 1) d' isDelta
      rwa [show k + (i + 1) = k + 1 + i by omega] at later
    rw [Nat.add_zero] at bit
    by_cases zero : d.srcIdx = 0
    · refine ⟨r.srcIdxExcPos, ?_, .inr ⟨flag, ?_, laterBits⟩⟩
      · rw [WindowReader.nextSrcIdx, if_pos flag, bit, unchanged zero]
        simp [zero]
      · simpa [laneBytes, Lane.bytes, zero] using here
    · have stored : At bytes r.srcIdxExcPos
          (writeVarint d.srcIdx ++ laneBytes .srcIdx (k + 1) ds) := by
        simpa [laneBytes, Lane.bytes, zero] using here
      refine ⟨r.srcIdxExcPos + (writeVarint d.srcIdx).length, ?_,
        .inr ⟨flag, stored.right, laterBits⟩⟩
      rw [WindowReader.nextSrcIdx, if_pos flag, bit]
      simp [zero, readVarint_writeVarint fits.srcIdx stored.left]

end Step

theorem wrap_inI32 (v : Int) : InI32 (wrap v) := by
  have lower := Int.le_bmod (x := v) (m := 2 ^ 32) (by decide)
  have upper := Int.bmod_lt (x := v) (m := 2 ^ 32) (by decide)
  unfold InI32 wrap
  omega

/-- The rare sections correct the line difference and move the source index. -/
theorem rare_eq {bytes : List UInt8} {r : WindowReader} {k : Nat} {d : Delta}
    {ds : List Delta} (lines : LinesReady bytes r k (d :: ds))
    (sources : SourcesReady bytes r k (d :: ds)) (fits : d.Fits)
    (small : k + ds.length + 1 < 64)
    (lineEq : bitAt bytes (r.base + 16) k = some (decide (d.origLine = d.genLine)))
    {state : State} (inside : InI32 state.sourceIndex) :
    ∃ pos idx pos', let r' := { r with
        genLineExcPos := pos, genLineExcNextIdx := idx, srcIdxExcPos := pos' }
      WindowReader.nextIfRare bytes r k (if 1 ≤ d.genLine then 1 else 0)
          (if d.origLine = d.genLine then (if 1 ≤ d.genLine then 1 else 0)
            else d.origLine) state =
        some (r', d.genLine, d.origLine,
          { state with sourceIndex := wrap (state.sourceIndex + d.srcIdx) }) ∧
      LinesReady bytes r' (k + 1) ds ∧ SourcesReady bytes r' (k + 1) ds := by
  obtain ⟨pos, idx, exception, laterLines⟩ := lines.next fits small lineEq
  have sourcesBehind : SourcesReady bytes
      { r with genLineExcPos := pos, genLineExcNextIdx := idx } k (d :: ds) := sources
  obtain ⟨pos', source, laterSources⟩ := sourcesBehind.next fits inside
  by_cases rare : r.flags ≠ 0
  · refine ⟨pos, idx, pos', ?_, laterLines, laterSources⟩
    rw [WindowReader.nextIfRare, if_pos rare, WindowReader.nextRare, exception]
    simp only [Option.bind_eq_bind, Option.bind_some, source]
  · have flags : r.flags = 0 := Classical.not_not.mp rare
    obtain ⟨noMore, none⟩ := lines.resolve_right fun found => rare found.1
    obtain ⟨_, noSource⟩ := sources.resolve_right fun found => by
      rw [flags] at found
      exact found.1 (by decide)
    have line := Delta.genLine_of_regular (none d (List.mem_cons_self ..))
    have origLine : (if d.origLine = d.genLine then d.genLine else d.origLine) =
        d.origLine := by
      by_cases same : d.origLine = d.genLine
      · rw [if_pos same, same]
      · rw [if_neg same]
    refine ⟨r.genLineExcPos, r.genLineExcNextIdx, r.srcIdxExcPos, ?_, ?_, ?_⟩
    · rw [WindowReader.nextIfRare, if_neg rare, line, origLine, noSource d (List.mem_cons_self ..), Int.add_zero,
        wrap_of_inI32 inside]
    · exact .inl ⟨noMore, fun d' member => none d' (List.mem_cons_of_mem _ member)⟩
    · refine .inl ⟨?_, fun d' member => noSource d' (List.mem_cons_of_mem _ member)⟩
      rw [flags]
      decide

/-- Bits of the deltas behind the first. -/
theorem tail_bits {bytes : List UInt8} {off k : Nat} {d : Delta} {ds : List Delta}
    {p : Delta → Bool}
    (bits : ∀ i d', (d :: ds)[i]? = some d' → bitAt bytes off (k + i) = some (p d')) :
    ∀ i d', ds[i]? = some d' → bitAt bytes off (k + 1 + i) = some (p d') := by
  intro i d' isDelta
  have later := bits (i + 1) d' isDelta
  rwa [show k + (i + 1) = k + 1 + i by omega] at later

/-- The reader behind the always present sections of a delta. -/
def WindowReader.past (r : WindowReader) (d : Delta) : WindowReader :=
  { r with
    deltaIdx := r.deltaIdx + 1
    genColPos := r.genColPos + (Lane.bytes r.deltaIdx d .genCol).length
    origLineExcPos := r.origLineExcPos + (Lane.bytes r.deltaIdx d .origLine).length
    origColExcPos := r.origColExcPos + (Lane.bytes r.deltaIdx d .origCol).length }

/-- One step: the reader yields the next mapping and stands before the rest. -/
theorem Ready.next {bytes : List UInt8} {r : WindowReader} {d : Delta} {ds : List Delta}
    (ready : Ready bytes r (d :: ds)) {state : State} (inside : InI32 state.sourceIndex) :
    ∃ r', r.next bytes state = some (r', d.applyTo state) ∧ Ready bytes r' ds := by
  have fits := ready.fits d (List.mem_cons_self ..)
  have count := ready.count
  have small := ready.small
  rw [List.length_cons] at count
  have genLineBit : bitAt bytes (r.base + 8) r.deltaIdx = _ :=
    ready.genLineBit 0 d rfl
  have origLineBit : bitAt bytes (r.base + 16) r.deltaIdx = _ :=
    ready.origLineBit 0 d rfl
  have origColBit : bitAt bytes (r.base + 24) r.deltaIdx = _ :=
    ready.origColBit 0 d rfl
  have genCol := readVarint_writeVarint fits.genCol ready.genCol.left
  have origLine := readUnless_eq (if 1 ≤ d.genLine then 1 else 0) fits.origLine
    ready.origLine
  have origCol := readUnless_eq d.genCol fits.origCol ready.origCol
  have sameCol : (if d.origCol = d.genCol then d.genCol else d.origCol) = d.origCol := by
    by_cases same : d.origCol = d.genCol
    · rw [if_pos same, same]
    · rw [if_neg same]
  rw [sameCol] at origCol
  have linesBehind : LinesReady bytes (r.past d) r.deltaIdx (d :: ds) := ready.lines
  have sourcesBehind : SourcesReady bytes (r.past d) r.deltaIdx (d :: ds) := ready.sources
  obtain ⟨pos, idx, pos', rare, lines, sources⟩ :=
    rare_eq linesBehind sourcesBehind fits (by omega) origLineBit inside
  refine ⟨{ r.past d with
    genLineExcPos := pos, genLineExcNextIdx := idx, srcIdxExcPos := pos' }, ?_, ?_⟩
  · rw [WindowReader.next]
    simp only [Option.bind_eq_bind, genLineBit, Option.bind_some, genCol, origLineBit,
      decide_eq_true_eq, origLine, origColBit, origCol]
    exact (congrArg (Option.bind · _) rare).trans rfl
  · exact {
      count := by
        show r.count = r.deltaIdx + 1 + ds.length + 1
        omega
      small := small
      fits := fun d' member => ready.fits d' (List.mem_cons_of_mem _ member)
      genLineBit := tail_bits (p := fun d => decide (1 ≤ d.genLine)) ready.genLineBit
      origLineBit := tail_bits (p := fun d => decide (d.origLine = d.genLine))
        ready.origLineBit
      origColBit := tail_bits (p := fun d => decide (d.origCol = d.genCol))
        ready.origColBit
      genCol := ready.genCol.right
      origLine := ready.origLine.right
      origCol := ready.origCol.right
      lines := lines
      sources := sources }

/-- Reading on until the window is done yields all its mappings. -/
theorem Ready.rest {bytes : List UInt8} {r : WindowReader} {ds : List Delta} {fuel : Nat}
    (ready : Ready bytes r ds) (enough : ds.length < fuel) {state : State}
    (inside : InI32 state.sourceIndex) :
    r.rest bytes fuel state = some (applyAll state ds) := by
  induction ds generalizing r state fuel with
  | nil =>
      obtain ⟨fuel, rfl⟩ : ∃ n, fuel = n + 1 := ⟨fuel - 1, by omega⟩
      rw [WindowReader.rest, if_pos (ready.done_iff.mpr rfl)]
      rfl
  | cons d ds ih =>
      obtain ⟨fuel, rfl⟩ : ∃ n, fuel = n + 1 := ⟨fuel - 1, by omega⟩
      have notDone : ¬r.done = true := by
        rw [ready.done_iff]
        exact List.cons_ne_nil d ds
      obtain ⟨r', step, behind⟩ := ready.next inside
      have later : r'.rest bytes fuel (d.applyTo state) = _ :=
        ih behind (Nat.lt_of_succ_lt_succ enough) (wrap_inI32 _)
      rw [WindowReader.rest, if_neg notDone, step]
      simp only [Option.bind_eq_bind, Option.bind_some, later, applyAll]
      rfl

/-! ### The header of a window -/

/-- The loop of `parse` stops at the terminator. -/
theorem skipGenLineExc_eq {bytes : List UInt8} {k pos fuel : Nat} {ds : List Delta}
    (fits : ∀ d ∈ ds, d.Fits) (small : k + ds.length < 64)
    (enough : (laneBytes .genLine k ds).length < fuel)
    (here : At bytes pos (laneBytes .genLine k ds ++ [0xFF])) :
    WindowReader.skipGenLineExc bytes fuel pos =
      some (pos + (laneBytes .genLine k ds).length) := by
  induction ds generalizing k pos fuel with
  | nil =>
      obtain ⟨fuel, rfl⟩ : ∃ n, fuel = n + 1 := ⟨fuel - 1, by omega⟩
      have terminator : bytes[pos]? = some 0xFF := here.head
      simp [WindowReader.skipGenLineExc, terminator, laneBytes]
  | cons d ds ih =>
      have laterFits : ∀ d' ∈ ds, d'.Fits := fun d' member =>
        fits d' (List.mem_cons_of_mem _ member)
      rw [List.length_cons] at small
      by_cases line : d.lineException = true
      · obtain ⟨fuel, rfl⟩ : ∃ n, fuel = n + 1 := ⟨fuel - 1, by omega⟩
        have same : laneBytes .genLine k (d :: ds) = UInt8.ofNat k ::
            (writeVarint d.genLine ++ laneBytes .genLine (k + 1) ds) := by
          simp [laneBytes, Lane.bytes, line]
        rw [same, List.cons_append, List.append_assoc] at here
        rw [same, List.length_cons, List.length_append] at enough ⊢
        have notEnd : ¬UInt8.ofNat k = 0xFF := by
          intro isEnd
          have value := byte_toNat (n := k) (by omega)
          rw [isEnd, show (0xFF : UInt8).toNat = 255 from rfl] at value
          omega
        have index := here.head
        have value := readVarint_writeVarint (fits d (List.mem_cons_self ..)).genLine
          here.tail.left
        have later : WindowReader.skipGenLineExc bytes fuel _ = _ :=
          ih laterFits (by omega) (by omega) here.tail.right
        rw [WindowReader.skipGenLineExc, index]
        simp only [if_neg notEnd, value, Option.bind_eq_bind, Option.bind_some, later,
          Option.some.injEq]
        omega
      · have same : laneBytes .genLine k (d :: ds) = laneBytes .genLine (k + 1) ds := by
          simp [laneBytes, Lane.bytes, line]
        rw [same] at here enough ⊢
        exact ih laterFits (by omega) enough here

theorem parseGenLineExc_eq {bytes more : List UInt8} {r : WindowReader} {pos : Nat}
    {ds : List Delta} (fits : ∀ d ∈ ds, d.Fits) (small : ds.length < 64)
    (flags : r.flags = flagsOf ds) (noNext : r.genLineExcNextIdx = 0xFF)
    (here : At bytes pos (genLineSection ds ++ more)) :
    ∃ p i, WindowReader.parseGenLineExc bytes r pos =
        some ({ r with genLineExcPos := p, genLineExcNextIdx := i },
          pos + (genLineSection ds).length) ∧
      LinesReady bytes { r with genLineExcPos := p, genLineExcNextIdx := i } 0 ds := by
  by_cases line : flagsOf ds &&& flagHasGenLineExceptions ≠ 0
  · have isSection : genLineSection ds = laneBytes .genLine 0 ds ++ [0xFF] := by
      rw [genLineSection, if_pos line]
    rw [isSection] at here ⊢
    have rare : r.flags ≠ 0 := by
      intro zero
      rw [← flags, zero] at line
      exact line (by decide)
    have inside := here.left.fits (List.append_ne_nil_of_right_ne_nil _ (by simp))
    rw [List.length_append, List.length_singleton] at inside
    obtain ⟨b, first, ready⟩ := LinesReady.of_at (r := r) rare here.left
    have skipped : WindowReader.skipGenLineExc bytes (bytes.length + 1) pos = _ :=
      skipGenLineExc_eq fits (by omega) (by omega) here.left
    refine ⟨pos, b.toNat, ?_, ready⟩
    rw [WindowReader.parseGenLineExc, flags, if_pos line, first]
    simp only [Option.bind_eq_bind, skipped, Option.bind_some, Option.some.injEq,
      Prod.mk.injEq, true_and, List.length_append, List.length_singleton]
    omega
  · have none := Classical.not_not.mp line
    refine ⟨r.genLineExcPos, r.genLineExcNextIdx, ?_, .inl ⟨noNext, ?_⟩⟩
    · have notSet : ¬r.flags &&& flagHasGenLineExceptions ≠ 0 := by
        rw [flags]
        exact line
      rw [WindowReader.parseGenLineExc, if_neg notSet, genLineSection, if_neg line]
      rfl
    · intro d member
      exact Delta.lineException_of_flags (flagsOf_mem none member)

theorem maskBits_of_getElem? {mask : Mask} {ds : List Delta} {i : Nat} {d : Delta}
    (isDelta : ds[i]? = some d) : maskBits mask ds i = mask.bitOf d := by
  rw [maskBits, isDelta]

/-- A mask in the bytes answers for every delta. -/
theorem bitAt_mask {bytes : List UInt8} {off : Nat} {mask : Mask} {ds : List Delta}
    (small : ds.length < 64) (here : At bytes off (maskBytes 8 (maskBits mask ds))) :
    ∀ i d, ds[i]? = some d → bitAt bytes off (0 + i) = some (mask.bitOf d) := by
  intro i d isDelta
  have inside := (List.getElem?_eq_some_iff.mp isDelta).1
  rw [Nat.zero_add, bitAt_maskBytes here (by omega), maskBits_of_getElem? isDelta]

/-- The parts of a window's header, where they stand. -/
structure HeaderAt (bytes : List UInt8) (start : Nat) (ds : List Delta) : Prop where
  count : bytes[start]? = some (UInt8.ofNat (ds.length + 1))
  flags : bytes[start + 1]? = some (flagsOf ds)
  genColLen : readLe bytes (start + 2) 2 = some (laneBytes .genCol 0 ds).length
  origLineLen : readLe bytes (start + 4) 2 = some (laneBytes .origLine 0 ds).length
  origColLen : readLe bytes (start + 6) 2 = some (laneBytes .origCol 0 ds).length
  genLineMask : At bytes (start + 8) (maskBytes 8 (maskBits .genLine ds))
  origLineMask : At bytes (start + 16) (maskBytes 8 (maskBits .origLineEq ds))
  origColMask : At bytes (start + 24) (maskBytes 8 (maskBits .origColEq ds))

/-- A section is short enough for its 16-bit length. -/
theorem readLe_section {bytes : List UInt8} {off : Nat} {lane : Lane} {ds : List Delta}
    (small : ds.length < 64)
    (here : At bytes off (leBytes 2 (laneBytes lane 0 ds).length)) :
    readLe bytes off 2 = some (laneBytes lane 0 ds).length := by
  apply readLe_leBytes (by decide) _ here
  have bound := laneBytes_length_le lane 0 ds
  have step : lane.step ≤ 6 := by
    cases lane <;> simp [Lane.step]
  have product := Nat.mul_le_mul step (Nat.le_of_lt small)
  omega

theorem headerAt {bytes : List UInt8} {start : Nat} {ds : List Delta}
    (small : ds.length < 64) (here : At bytes start (windowHeader ds)) :
    HeaderAt bytes start ds := by
  have throughLineMask := here.left
  have throughLines := throughLineMask.left
  have throughOrigCol := throughLines.left
  have throughOrigLine := throughOrigCol.left
  have throughGenCol := throughOrigLine.left
  have throughFlags := throughGenCol.left
  constructor
  · exact throughFlags.left.head
  · exact throughFlags.right.head
  · exact readLe_section small throughGenCol.right
  · apply readLe_section small
    simpa using throughOrigLine.right
  · apply readLe_section small
    simpa using throughOrigCol.right
  · simpa using throughLines.right
  · simpa using throughLineMask.right
  · simpa using here.right

/-- What `parse` takes from the header. -/
def WindowReader.atStart (r : WindowReader) (start : Nat) (ds : List Delta) :
    WindowReader :=
  { r with
    base := start
    count := ds.length + 1
    flags := flagsOf ds
    deltaIdx := 0
    genColPos := start + 32
    origLineExcPos := start + 32 + (laneBytes .genCol 0 ds).length
    origColExcPos :=
      start + 32 + (laneBytes .genCol 0 ds).length + (laneBytes .origLine 0 ds).length
    genLineExcNextIdx := 0xFF }

/-- The sections of a window from position `pos` on, without the first. -/
theorem parse_eq {bytes : List UInt8} {start : Nat} {ds : List Delta} (r : WindowReader)
    (small : ds.length < 64) (header : HeaderAt bytes start ds) :
    r.parse bytes start = (do
      let (r, pos) ← WindowReader.parseGenLineExc bytes (r.atStart start ds)
        (start + 32 + (laneBytes .genCol 0 ds).length +
          (laneBytes .origLine 0 ds).length + (laneBytes .origCol 0 ds).length)
      if flagsOf ds &&& flagHasSrcIdx ≠ 0 then
        return { r with srcIdxMask := pos, srcIdxExcPos := pos + 8 }
      else return r) := by
  have count : min (UInt8.ofNat (ds.length + 1)).toNat syncInterval = ds.length + 1 := by
    rw [byte_toNat (by omega), syncInterval]
    omega
  rw [WindowReader.parse]
  simp only [Option.bind_eq_bind, header.count, Option.bind_some, header.flags,
    header.genColLen, header.origLineLen, header.origColLen, count]
  rfl

/-- Parsing a window's header readies the reader for all of its deltas. -/
theorem parse_ready {bytes : List UInt8} {start : Nat} {ds : List Delta}
    (r : WindowReader) (small : ds.length < 64) (fits : ∀ d ∈ ds, d.Fits)
    (here : At bytes start (windowBytes ds)) :
    ∃ r', r.parse bytes start = some r' ∧ Ready bytes r' ds := by
  have header := headerAt small here.left.left
  have genCol := here.left.right
  have later := here.right
  simp only [List.length_append, windowHeader_length, laterSections,
    List.flatten_cons, List.flatten_nil, List.append_nil, ← Nat.add_assoc] at genCol later
  have rare := later.right.right
  obtain ⟨p, i, parsed, lines⟩ := parseGenLineExc_eq (r := r.atStart start ds) fits small
    rfl rfl rare
  have isReady (mask pos : Nat)
      (sources : SourcesReady bytes { r.atStart start ds with
        genLineExcPos := p, genLineExcNextIdx := i, srcIdxMask := mask,
        srcIdxExcPos := pos } 0 ds) :
      Ready bytes { r.atStart start ds with
        genLineExcPos := p, genLineExcNextIdx := i, srcIdxMask := mask,
        srcIdxExcPos := pos } ds := by
    exact {
      count := (Nat.zero_add ds.length).symm ▸ rfl
      small := small
      fits := fits
      genLineBit := bitAt_mask small header.genLineMask
      origLineBit := bitAt_mask small header.origLineMask
      origColBit := bitAt_mask small header.origColMask
      genCol := genCol
      origLine := later.left
      origCol := later.right.left
      lines := lines
      sources := sources }
  rw [parse_eq r small header, parsed]
  by_cases source : flagsOf ds &&& flagHasSrcIdx ≠ 0
  · have isSection : srcIdxSection ds =
        maskBytes 8 (maskBits .srcIdx ds) ++ laneBytes .srcIdx 0 ds := by
      rw [srcIdxSection, if_pos source]
    have stored := rare.right
    rw [isSection] at stored
    have indices := stored.right
    rw [maskBytes_length] at indices
    refine ⟨_, ?_, isReady _ _ (.inr ⟨source, indices, bitAt_mask small stored.left⟩)⟩
    simp only [Option.bind_eq_bind, Option.bind_some, if_pos source]
    rfl
  · have none := Classical.not_not.mp source
    have noSources : SourcesReady bytes { r.atStart start ds with
        genLineExcPos := p, genLineExcNextIdx := i } 0 ds :=
      .inl ⟨none, fun d member => Delta.srcIdx_of_flags (flagsOf_mem none member)⟩
    refine ⟨_, ?_, isReady _ _ noSources⟩
    simp only [Option.bind_eq_bind, Option.bind_some, if_neg source]
    rfl

end Bunx.SourceMap
