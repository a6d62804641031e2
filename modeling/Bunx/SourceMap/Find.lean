/-
Module: Bunx.SourceMap.Find
Purpose: What a lookup is for: the last mapping at or before a position, when it lies
  on the line.  `find` computes it on the blob of sorted mappings.
Trusted boundary: none
Main exports: Sorted, lookup, lookup_eq, locateWindow_spec, find_eq_lookup
-/
import Bunx.SourceMap.Lookup
import Bunx.SourceMap.Windows

namespace Bunx.SourceMap

open Lib

/-! ### The abstract lookup -/

/-- Order by generated position. -/
def State.NotAfter (a b : State) : Prop :=
  a.generatedLine < b.generatedLine ∨
    (a.generatedLine = b.generatedLine ∧ a.generatedColumn ≤ b.generatedColumn)

/-- Mappings in non-decreasing generated order. -/
def Sorted (mappings : List State) : Prop := mappings.Pairwise State.NotAfter

/-- The last of the leading mappings at or before a position, if on its line. -/
def lookup (mappings : List State) (line col : Int) : Option Mapping :=
  ((mappings.takeWhile (·.lessOrEqual line col)).getLast?).bind (·.onLine line)

theorem lessOrEqual_of_notAfter {a b : State} {line col : Int} (order : a.NotAfter b)
    (reached : b.lessOrEqual line col = true) : a.lessOrEqual line col = true := by
  simp only [State.lessOrEqual, Bool.or_eq_true, Bool.and_eq_true,
    decide_eq_true_eq] at reached ⊢
  unfold State.NotAfter at order
  omega

/-- Nothing of the list lies at or before the position. -/
theorem lookup_none {mappings : List State} {line col : Int}
    (stop : ∀ x, mappings.head? = some x → ¬x.lessOrEqual line col = true) :
    lookup mappings line col = none := by
  cases mappings with
  | nil => rfl
  | cons x rest =>
      rw [lookup, List.takeWhile_cons, if_neg (stop x rfl)]
      rfl

/-- A stretch that begins at or before the position and is followed by nothing that
does decides the lookup. -/
theorem lookup_middle {before rest after : List State} {s : State} {line col : Int}
    (sorted : Sorted (before ++ (s :: rest ++ after)))
    (reached : s.lessOrEqual line col = true)
    (stop : ∀ x, after.head? = some x → ¬x.lessOrEqual line col = true) :
    lookup (before ++ (s :: rest ++ after)) line col = lookup (s :: rest) line col := by
  have leading : ∀ x ∈ before, x.lessOrEqual line col = true := by
    intro x member
    have order := (List.pairwise_append.mp sorted).2.2 x member s (List.mem_cons_self ..)
    exact lessOrEqual_of_notAfter order reached
  have noMore : after.takeWhile (·.lessOrEqual line col) = [] := by
    cases after with
    | nil => rfl
    | cons x after => rw [List.takeWhile_cons, if_neg (stop x rfl)]
  have middle : (s :: rest ++ after).takeWhile (·.lessOrEqual line col) =
      (s :: rest).takeWhile (·.lessOrEqual line col) := by
    rw [List.takeWhile_append]
    split
    · next whole =>
        rw [noMore, List.append_nil]
        exact ((List.takeWhile_prefix _).eq_of_length whole).symm
    · rfl
  have nonempty : ((s :: rest).takeWhile (·.lessOrEqual line col)) ≠ [] := by
    rw [List.takeWhile_cons, if_pos reached]
    exact List.cons_ne_nil _ _
  rw [lookup, lookup, List.takeWhile_append_of_pos leading, middle,
    List.getLast?_append_of_ne_nil _ nonempty]

/-- The lookup finds the mapping at which the order passes the position. -/
theorem lookup_eq {before after : List State} {s : State} {line col : Int}
    (sorted : Sorted (before ++ s :: after)) (reached : s.lessOrEqual line col = true)
    (stop : ∀ x, after.head? = some x → ¬x.lessOrEqual line col = true) :
    lookup (before ++ s :: after) line col = s.onLine line := by
  have whole : Sorted (before ++ ([s] ++ after)) := sorted
  have middle : lookup (before ++ s :: after) line col = lookup [s] line col :=
    lookup_middle whole reached stop
  rw [middle, lookup, List.takeWhile_cons, if_pos reached]
  rfl

/-! ### Locating the window -/

theorem window_split {ws : List Window} {i : Nat} {w : Window} (isWindow : ws[i]? = some w) :
    mappingsOf ws =
      mappingsOf (ws.take i) ++ (w.first :: w.rest ++ mappingsOf (ws.drop (i + 1))) := by
  obtain ⟨inside, isGet⟩ := List.getElem?_eq_some_iff.mp isWindow
  have split : ws = ws.take i ++ w :: ws.drop (i + 1) := by
    rw [← isGet, ← List.drop_eq_getElem_cons inside, List.take_append_drop]
  conv_lhs => rw [split]
  simp [mappingsOf, Window.mappings]

/-- What comes behind a window begins with the first mapping of the next. -/
theorem mappingsOf_drop_head (ws : List Window) (i : Nat) :
    (mappingsOf (ws.drop i)).head? = (ws[i]?).map Window.first := by
  cases isRest : ws.drop i with
  | nil =>
      rw [List.getElem?_eq_none (List.drop_eq_nil_iff.mp isRest)]
      rfl
  | cons w rest =>
      have isWindow : ws[i]? = some w := by
        rw [← List.head?_drop, isRest]
        rfl
      rw [isWindow]
      rfl

theorem firsts_sorted {ws : List Window} (sorted : Sorted (mappingsOf ws)) :
    ws.Pairwise fun w w' => w.first.NotAfter w'.first := by
  induction ws with
  | nil => exact List.Pairwise.nil
  | cons w ws ih =>
      have parts := List.pairwise_append.mp
        (show (w.mappings ++ mappingsOf ws).Pairwise State.NotAfter from sorted)
      apply List.Pairwise.cons
      · intro w' member
        apply parts.2.2 w.first (List.mem_cons_self ..)
        exact mem_mappingsOf member (List.mem_cons_self ..)
      · exact ih parts.2.1

/-- The last window to begin at or before the target, or none does. -/
theorem locateWindow_spec {blob : Blob} {ws : List Window} {bytes : List UInt8}
    (stores : Stores blob (entriesOf 0 ws) bytes) (sorted : Sorted (mappingsOf ws)) (line col : Int) :
    (locateWindow blob line col = some none ∧
      ∀ x, (mappingsOf ws).head? = some x → ¬x.lessOrEqual line col = true) ∨
    ∃ i w, locateWindow blob line col = some (some i) ∧ ws[i]? = some w ∧
      w.first.lessOrEqual line col = true ∧
      ∀ x, (mappingsOf (ws.drop (i + 1))).head? = some x →
        ¬x.lessOrEqual line col = true := by
  let reached (w : Window) : Bool := w.first.lessOrEqual line col
  have monotone : ws.Pairwise fun w w' => reached w' = true → reached w = true :=
    (firsts_sorted sorted).imp fun order => lessOrEqual_of_notAfter order
  have position : partitionPoint
      (fun mid => (blob.syncEntry mid).map (·.lessOrEqual line col)) ws.length 0
      ws.length = some (ws.takeWhile reached).length := by
    apply partitionPoint_eq _ (Nat.zero_le _) (List.takeWhile_prefix _).length_le
      (Nat.le_refl _)
    intro i _ inside
    have isWindow := List.getElem?_eq_getElem inside
    rw [stores.syncEntry i _ (entriesOf_getElem? 0 isWindow),
      ← takeWhile_test monotone isWindow]
    rfl
  have located : locateWindow blob line col =
      some (if (ws.takeWhile reached).length = 0 then none
        else some ((ws.takeWhile reached).length - 1)) := by
    rw [locateWindow, stores.syncCount, entriesOf_length]
    simp only [Option.bind_eq_bind, Option.bind_some, position]
    rfl
  have behind (i : Nat) (w : Window) (isWindow : ws[i]? = some w)
      (outside : (ws.takeWhile reached).length ≤ i) : ¬w.first.lessOrEqual line col = true := by
    have test := takeWhile_test monotone isWindow
    rw [decide_eq_false (by omega)] at test
    exact Bool.eq_false_iff.mp test
  by_cases none : (ws.takeWhile reached).length = 0
  · refine .inl ⟨by rw [located, if_pos none], ?_⟩
    intro x isHead
    have head := mappingsOf_drop_head ws 0
    rw [List.drop_zero, isHead] at head
    obtain ⟨w, isWindow, rfl⟩ := Option.map_eq_some_iff.mp head.symm
    exact behind 0 w isWindow (by omega)
  · obtain ⟨i, length⟩ : ∃ i, (ws.takeWhile reached).length = i + 1 :=
      ⟨(ws.takeWhile reached).length - 1, by omega⟩
    have inside : i < ws.length := by
      have := (List.takeWhile_prefix (l := ws) reached).length_le
      omega
    have isWindow := List.getElem?_eq_getElem inside
    refine .inr ⟨i, ws[i], ?_, isWindow, ?_, ?_⟩
    · rw [located, if_neg none, length, Nat.add_sub_cancel]
    · have test := takeWhile_test monotone isWindow
      rw [decide_eq_true (by omega)] at test
      exact test
    · intro x isHead
      have head := mappingsOf_drop_head ws (i + 1)
      rw [isHead] at head
      obtain ⟨w, isNext, rfl⟩ := Option.map_eq_some_iff.mp head.symm
      exact behind (i + 1) w isNext (by omega)

/-! ### `find` -/

/-- A reader that stands behind `s`, with the mappings `rest` in front of it. -/
structure Reads (bytes : List UInt8) (r : WindowReader) (s : State) (rest : List State) :
    Prop where
  ready : Ready bytes r (deltas s rest)
  valid : s.Valid
  restValid : ∀ x ∈ rest, x.Valid

theorem Reads.done_iff {bytes : List UInt8} {r : WindowReader} {s : State}
    {rest : List State} (reads : Reads bytes r s rest) : r.done = true ↔ rest = [] := by
  rw [reads.ready.done_iff, ← List.length_eq_zero_iff, deltas_length,
    List.length_eq_zero_iff]

theorem Reads.next {bytes : List UInt8} {r : WindowReader} {s x : State}
    {rest : List State} (reads : Reads bytes r s (x :: rest)) :
    ∃ r', r.next bytes s = some (r', x) ∧ Reads bytes r' x rest := by
  have xValid := reads.restValid x (List.mem_cons_self ..)
  obtain ⟨r', step, ready⟩ := reads.ready.next reads.valid.sourceIndex.inI32
  rw [Delta.between_applyTo reads.valid xValid] at step
  exact ⟨r', step, ready, xValid, fun y member =>
    reads.restValid y (List.mem_cons_of_mem _ member)⟩

theorem Encodes.reads {blob : Blob} {ws : List Window} {i : Nat} {w : Window}
    (encodes : Encodes blob ws) (isWindow : ws[i]? = some w) (r : WindowReader) :
    ∃ r', seedWindow blob r i = some (w.first, r') ∧
      Reads (paddedStream ws) r' w.first w.rest := by
  obtain ⟨r', seeded, ready⟩ := encodes.seed isWindow r
  exact ⟨r', seeded, ready, encodes.firstValid isWindow, encodes.restValid isWindow⟩

theorem findLoop_stop {bytes : List UInt8} {fuel : Nat} {r : WindowReader} {s x : State}
    {rest : List State} {line col : Int} (reads : Reads bytes r s (x :: rest))
    (positive : 0 < fuel) (beyond : ¬x.lessOrEqual line col = true) :
    findLoop bytes line col fuel r s = some s := by
  obtain ⟨fuel, rfl⟩ : ∃ n, fuel = n + 1 := ⟨fuel - 1, by omega⟩
  have notDone : ¬r.done = true := by
    rw [reads.done_iff]
    exact List.cons_ne_nil x rest
  obtain ⟨r', step, _⟩ := reads.next
  rw [findLoop, if_neg notDone, step]
  simp only [Option.bind_eq_bind, Option.bind_some, if_neg beyond]
  rfl

theorem findLoop_pass {bytes : List UInt8} {fuel : Nat} {r : WindowReader} {s x : State}
    {rest : List State} {line col : Int} (reads : Reads bytes r s (x :: rest))
    (passed : x.lessOrEqual line col = true) :
    ∃ r', Reads bytes r' x rest ∧ findLoop bytes line col (fuel + 1) r s =
      findLoop bytes line col fuel r' x := by
  have notDone : ¬r.done = true := by
    rw [reads.done_iff]
    exact List.cons_ne_nil x rest
  obtain ⟨r', step, behind⟩ := reads.next
  refine ⟨r', behind, ?_⟩
  rw [findLoop, if_neg notDone, step]
  simp only [Option.bind_eq_bind, Option.bind_some, if_pos passed]

/-- Stepping through a window stops where the mappings pass the target. -/
theorem findLoop_spec {bytes : List UInt8} {fuel : Nat} {r : WindowReader} {s : State}
    {rest : List State} {line col : Int} (reads : Reads bytes r s rest)
    (enough : rest.length < fuel) (reached : s.lessOrEqual line col = true) :
    ∃ before best after, s :: rest = before ++ best :: after ∧
      findLoop bytes line col fuel r s = some best ∧
      best.lessOrEqual line col = true ∧
      ∀ x, after.head? = some x → ¬x.lessOrEqual line col = true := by
  induction rest generalizing fuel r s with
  | nil =>
      obtain ⟨fuel, rfl⟩ : ∃ n, fuel = n + 1 := ⟨fuel - 1, by omega⟩
      refine ⟨[], s, [], rfl, ?_, reached, ?_⟩
      · rw [findLoop, if_pos (reads.done_iff.mpr rfl)]
      · intro x isHead
        cases isHead
  | cons x rest ih =>
      obtain ⟨fuel, rfl⟩ : ∃ n, fuel = n + 1 := ⟨fuel - 1, by omega⟩
      by_cases passed : x.lessOrEqual line col = true
      · obtain ⟨r', behind, goesOn⟩ := findLoop_pass reads passed
        obtain ⟨before, best, after, split, found, good, stop⟩ :=
          ih behind (Nat.lt_of_succ_lt_succ enough) passed
        refine ⟨s :: before, best, after, ?_, ?_, good, stop⟩
        · rw [split]
          rfl
        · rw [goesOn, found]
      · refine ⟨[], s, x :: rest, rfl, findLoop_stop reads (Nat.succ_pos _) passed,
          reached, ?_⟩
        intro y isHead
        cases isHead
        exact passed

/-- A stop inside a window, or at its end with the next window behind the target. -/
theorem stop_append {after later : List State} {line col : Int}
    (stop : ∀ x, after.head? = some x → ¬x.lessOrEqual line col = true)
    (stopLater : ∀ x, later.head? = some x → ¬x.lessOrEqual line col = true) :
    ∀ x, (after ++ later).head? = some x → ¬x.lessOrEqual line col = true := by
  cases after with
  | nil => exact stopLater
  | cons y after => exact stop

/-- `find` is the abstract lookup. -/
theorem find_eq_lookup {blob : Blob} {ws : List Window} (encodes : Encodes blob ws)
    (sorted : Sorted (mappingsOf ws)) (line col : Int) :
    find blob line col = some (lookup (mappingsOf ws) line col) := by
  rcases locateWindow_spec encodes.stores sorted line col with
    ⟨located, stop⟩ | ⟨i, w, located, isWindow, reached, stopLater⟩
  · rw [find, located, lookup_none stop]
    rfl
  · obtain ⟨r, seeded, reads⟩ := encodes.reads isWindow .dangling
    obtain ⟨before, best, after, split, found, good, stop⟩ :=
      findLoop_spec reads w.few reached
    have whole : mappingsOf ws = mappingsOf (ws.take i) ++ before ++
        best :: (after ++ mappingsOf (ws.drop (i + 1))) := by
      rw [window_split isWindow, split]
      simp
    rw [whole] at sorted ⊢
    rw [lookup_eq sorted good (stop_append stop stopLater), find, located]
    simp only [Option.bind_eq_bind, Option.bind_some, seeded, encodes.stream, found]
    rfl

end Bunx.SourceMap
