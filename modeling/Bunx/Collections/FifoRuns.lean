/-
Module: Bunx.Collections.FifoRuns
Purpose: A LinearFifo is a queue over whole runs, as long as no index is masked with a
  capacity that is not a power of two and no wrapped queue of too large items is
  realigned; shrinking can leave such a capacity.
Trusted boundary: none
Main exports: Op.Spec, Op.Safe, call_spec, Trace, ListTrace, fifo_run, shrink_loses_order
-/
import Bunx.Collections.FifoItems

namespace Bunx.Collections

open Lib LinearFifo

variable {α : Type}

namespace Op

/-- What a call does to a plain list: the items it gives out, whether it succeeds, and
the list behind it.  What `rewind` puts in front is left open. -/
def Spec : Op α → List α → List α → Bool → List α → Prop
  | .write src, xs, items, ok, ys => items = [] ∧ ys = if ok then xs ++ src else xs
  | .writeItem item, xs, items, ok, ys => items = [] ∧ ys = if ok then xs ++ [item] else xs
  | .read n, xs, items, _, ys => items = xs.take n ∧ ys = xs.drop n
  | .readItem, xs, items, _, ys => items = xs.head?.toList ∧ ys = xs.drop 1
  | .discard n, xs, items, _, ys => items = [] ∧ ys = xs.drop n
  | .unget src, xs, items, ok, ys => items = [] ∧ ys = if ok then src ++ xs else xs
  | .rewind n, xs, items, _, ys => items = [] ∧ ∃ front, front.length = n ∧ ys = front ++ xs
  | .orderedRemoveItem offset, xs, items, _, ys => items = [] ∧ ys = xs.eraseIdx offset
  | .realign, xs, items, _, ys => items = [] ∧ ys = xs
  | .ensureTotalCapacity _, xs, items, _, ys => items = [] ∧ ys = xs
  | .ensureUnusedCapacity _, xs, items, _, ys => items = [] ∧ ys = xs
  | .shrink _, xs, items, _, ys => items = [] ∧ ys = xs

/-- What the assertions ask of the caller. -/
def Allowed (s : LinearFifo α) : Op α → Prop
  | .discard n => n ≤ s.count
  | .rewind n => s.count + n ≤ s.buf.length
  | .orderedRemoveItem offset => offset < s.count
  | .shrink n => s.count ≤ n
  | _ => True

/-- Whether the call succeeds: there is room or it can be had. -/
def Fits (s : LinearFifo α) : Op α → Prop
  | .write src => s.HasRoom src.length
  | .writeItem _ => s.HasRoom 1
  | .unget src => s.HasRoom src.length
  | .ensureTotalCapacity n => s.HasTotal n
  | .ensureUnusedCapacity n => s.HasRoom n
  | _ => True

/-- The call masks or divides an index by the present capacity. -/
def Indexes (s : LinearFifo α) : Op α → Prop
  | .read n => s.count ≠ 0 ∧ n ≠ 0
  | .readItem => s.count ≠ 0
  | .discard _ => True
  | .rewind _ => True
  | .orderedRemoveItem offset => offset = 0 ∨ s.Wrapped
  | .writeItem _ => s.count + 1 ≤ s.buf.length
  | .unget src => s.count + src.length ≤ s.buf.length
  | _ => False

/-- The call realigns the buffer. -/
def Realigns (s : LinearFifo α) : Op α → Prop
  | .realign => True
  | .shrink _ => s.kind.isDynamic = true
  | .ensureTotalCapacity n => s.GrowsTo n
  | .ensureUnusedCapacity n => s.GrowsTo (s.count + n)
  | .write src => s.GrowsTo (s.count + src.length)
  | .writeItem _ => s.GrowsTo (s.count + 1)
  | .unget src => s.GrowsTo (s.count + src.length)
  | _ => False

/-- Where an index is wrapped, the capacity is a power of two or zero if it is masked
and not zero if it divides; where a wrapped queue is realigned, an item fits the
scratch area. -/
def Safe (itemSize : Nat) (s : LinearFifo α) (op : Op α) : Prop :=
  (op.Indexes s → s.IndexFits) ∧
    (op.Realigns s → s.Wrapped → itemSize ≤ pageSizeMin / 2)

end Op

/-! ### One call -/

section Call

variable {itemSize : Nat} {s : LinearFifo α}

/-- The calls that first ask for room and then put items in. -/
theorem room_then (fresh : Fresh α) {size : Nat} (inv : s.Inv) (positive : 0 < itemSize)
    (scratch : s.GrowsTo (s.count + size) → s.Wrapped → itemSize ≤ pageSizeMin / 2)
    (act : LinearFifo α → Option (LinearFifo α)) (after : List α → List α)
    (acts : ∀ s' : LinearFifo α, s'.Inv → s'.count + size ≤ s'.buf.length →
      (s' = s ∨ s'.IndexFits) →
      ∃ t, act s' = some t ∧ t.Inv ∧ t.toList = after s'.toList) :
    ∃ ok t, (do
        let (ok, s) ← s.ensureUnusedCapacity fresh itemSize size
        if ok then
          let s ← act s
          return (true, s)
        else return (false, s)) = some (ok, t) ∧ t.Inv ∧
      (t.toList = if ok = true then after s.toList else s.toList) ∧
      (ok = true ↔ s.HasRoom size) := by
  obtain ⟨ok, s', ensured, inv', same, _, isOk, kept, room, grown⟩ :=
    ensureUnusedCapacity_spec fresh inv positive scratch
  rw [ensured]
  simp only [Option.bind_eq_bind, Option.bind_some]
  cases ok with
  | false => exact ⟨false, s', rfl, inv', same, isOk⟩
  | true =>
      have unchanged : s' = s ∨ s'.IndexFits := by
        rcases Nat.lt_or_ge s.buf.length (s.count + size) with more | enough
        · exact .inr (grown more rfl)
        · exact .inl (kept enough)
      obtain ⟨t, acted, tInv, result⟩ := acts s' inv' (room rfl) unchanged
      refine ⟨true, t, ?_, tInv, ?_, isOk⟩
      · rw [if_pos rfl, acted]
        rfl
      · rw [if_pos rfl, result, same]

/-- An allowed, safe call returns, keeps the buffer well formed and does to the queue
what it does to a list. -/
theorem call_spec (fresh : Fresh α) {op : Op α} (inv : s.Inv) (positive : 0 < itemSize)
    (allowed : op.Allowed s) (safe : op.Safe itemSize s) :
    ∃ out, op.call fresh itemSize s = some out ∧ out.fifo.Inv ∧
      op.Spec s.toList out.items out.ok out.fifo.toList ∧ (out.ok = true ↔ op.Fits s) := by
  obtain ⟨indexFits, scratch⟩ := safe
  cases op with
  | write src =>
      obtain ⟨ok, t, written, tInv, result, isOk⟩ := room_then fresh inv positive scratch
        (·.writeAssumeCapacity (src.length + 1) src) (· ++ src)
        fun s' inv' room _ => writeAssumeCapacity_spec inv' room (Nat.lt_succ_self _)
      exact ⟨⟨t, [], ok⟩, congrArg (Option.map _) written, tInv, ⟨rfl, result⟩, isOk⟩
  | writeItem item =>
      obtain ⟨ok, t, written, tInv, result, isOk⟩ := room_then fresh inv positive scratch
        (·.writeItemAssumeCapacity item) (· ++ [item])
        fun s' inv' room same => by
          have fits : s'.IndexFits := by
            rcases same with rfl | fits
            · exact indexFits room
            · exact fits
          exact writeItemAssumeCapacity_spec inv' fits item room
      exact ⟨⟨t, [], ok⟩, congrArg (Option.map _) written, tInv, ⟨rfl, result⟩, isOk⟩
  | unget src =>
      obtain ⟨ok, t, written, tInv, result, isOk⟩ := room_then fresh inv positive scratch
        (fun s => (s.rewind src.length).bind (·.copyToReadable src)) (src ++ ·)
        fun s' inv' room same => by
          have fits : s'.IndexFits := by
            rcases same with rfl | fits
            · exact indexFits room
            · exact fits
          obtain ⟨s1, front, rewound, inv1, frontLength, put, count⟩ :=
            rewind_spec inv' fits room
          obtain ⟨t, copied, tInv, result⟩ := copyToReadable_spec inv1
            (show src.length ≤ s1.count by omega)
          refine ⟨t, ?_, tInv, ?_⟩
          · rw [rewound, Option.bind_some, copied]
          · rw [result, put, ← frontLength, List.drop_left]
      refine ⟨⟨t, [], ok⟩, ?_, tInv, ⟨rfl, result⟩, isOk⟩
      rw [Op.call, LinearFifo.unget]
      refine congrArg (Option.map _) (Eq.trans ?_ written)
      congr 1
      funext r
      obtain ⟨ok, s⟩ := r
      cases ok <;> simp [Option.bind_assoc]
  | read n =>
      obtain ⟨s', looped, inv', rest⟩ := readLoop_spec inv
        (fun some more => indexFits ⟨some, more⟩) (Nat.lt_succ_self n)
      exact ⟨⟨s', _, true⟩, congrArg (Option.map _) looped, inv', ⟨rfl, rest⟩,
        iff_of_true rfl trivial⟩
  | readItem =>
      obtain ⟨s', taken, inv', rest⟩ := readItem_spec inv indexFits
      exact ⟨⟨s', _, true⟩, congrArg (Option.map _) taken, inv', ⟨rfl, rest⟩,
        iff_of_true rfl trivial⟩
  | discard n =>
      obtain ⟨s', discarded, inv', rest, _⟩ := discard_spec inv (indexFits trivial) allowed
      exact ⟨⟨s', [], true⟩, congrArg (Option.map _) discarded, inv', ⟨rfl, rest⟩,
        iff_of_true rfl trivial⟩
  | rewind n =>
      obtain ⟨s', front, rewound, inv', frontLength, put, _⟩ :=
        rewind_spec inv (indexFits trivial) allowed
      exact ⟨⟨s', [], true⟩, congrArg (Option.map _) rewound, inv',
        ⟨rfl, front, frontLength, put⟩, iff_of_true rfl trivial⟩
  | orderedRemoveItem offset =>
      obtain ⟨s', removed, inv', rest⟩ := orderedRemoveItem_spec inv allowed indexFits
      exact ⟨⟨s', [], true⟩, congrArg (Option.map _) removed, inv', ⟨rfl, rest⟩,
        iff_of_true rfl trivial⟩
  | realign =>
      obtain ⟨s', realigned, head, count, kind, length, same⟩ :=
        realign_spec inv positive (scratch trivial)
      have few : s'.count ≤ s'.buf.length := by
        rw [count, length]
        exact inv.few
      exact ⟨⟨s', [], true⟩, congrArg (Option.map _) realigned,
        inv.of_front head few kind (.inr length), ⟨rfl, same⟩,
        iff_of_true rfl trivial⟩
  | ensureTotalCapacity n =>
      obtain ⟨ok, s', ensured, inv', same, _, isOk, _⟩ :=
        ensureTotalCapacity_spec fresh inv positive scratch
      exact ⟨⟨s', [], ok⟩, congrArg (Option.map _) ensured, inv', ⟨rfl, same⟩, isOk⟩
  | ensureUnusedCapacity n =>
      obtain ⟨ok, s', ensured, inv', same, _, isOk, _⟩ :=
        ensureUnusedCapacity_spec fresh inv positive scratch
      exact ⟨⟨s', [], ok⟩, congrArg (Option.map _) ensured, inv', ⟨rfl, same⟩, isOk⟩
  | shrink n =>
      obtain ⟨s', shrunk, inv', same⟩ := shrink_spec fresh inv positive allowed scratch
      exact ⟨⟨s', [], true⟩, congrArg (Option.map _) shrunk, inv', ⟨rfl, same⟩,
        iff_of_true rfl trivial⟩

end Call

/-! ### Runs -/

/-- What a run shows: the calls, the items they gave out and whether they succeeded. -/
abbrev Event (α : Type) := Op α × List α × Bool

/-- A run of allowed calls that return and meet the guard. -/
inductive Trace (guard : LinearFifo α → Op α → Prop) (itemSize : Nat) :
    LinearFifo α → List (Event α) → LinearFifo α → Prop where
  | done {s : LinearFifo α} : Trace guard itemSize s [] s
  | call {s t : LinearFifo α} {fresh : Fresh α} {op : Op α} {out : Outcome α}
      {events : List (Event α)} (allowed : op.Allowed s) (meets : guard s op)
      (returned : op.call fresh itemSize s = some out)
      (rest : Trace guard itemSize out.fifo events t) :
      Trace guard itemSize s ((op, out.items, out.ok) :: events) t

/-- The same calls on a plain list. -/
def ListTrace : List α → List (Event α) → List α → Prop
  | xs, [], ys => ys = xs
  | xs, (op, items, ok) :: events, zs =>
      ∃ ys, op.Spec xs items ok ys ∧ ListTrace ys events zs

/-- A fresh queue of one of the three kinds. -/
inductive Initial : LinearFifo α → Prop where
  | static {n : Nat} (memory : Vector α n) : Initial (initStatic memory)
  | slice (buf : List α) : Initial (initSlice buf)
  | dynamic : Initial initDynamic

theorem Initial.inv {s : LinearFifo α} (initial : Initial s) : s.Inv ∧ s.toList = [] := by
  cases initial with
  | static memory =>
      refine ⟨⟨Nat.zero_le _, fun some => some, fun _ => rfl, ?_⟩, rfl⟩
      intro n isStatic
      cases isStatic
      exact memory.length_toList
  | slice buf =>
      refine ⟨⟨Nat.zero_le _, fun some => some, fun _ => rfl, ?_⟩, rfl⟩
      intro n isStatic
      cases isStatic
  | dynamic =>
      refine ⟨⟨Nat.zero_le _, fun some => some, fun _ => rfl, ?_⟩, rfl⟩
      intro n isStatic
      cases isStatic

/-- Safe runs are runs of the list. -/
theorem Trace.spec {itemSize : Nat} (positive : 0 < itemSize) {s t : LinearFifo α}
    {events : List (Event α)} (inv : s.Inv)
    (run : Trace (fun s op => op.Safe itemSize s) itemSize s events t) :
    t.Inv ∧ ListTrace s.toList events t.toList := by
  induction run with
  | done => exact ⟨inv, rfl⟩
  | call allowed safe returned rest ih =>
      obtain ⟨out', returned', inv', spec, _⟩ := call_spec _ inv positive allowed safe
      rw [returned] at returned'
      cases returned'
      obtain ⟨tInv, more⟩ := ih inv'
      exact ⟨tInv, _, spec, more⟩

/-- In every run of allowed, safe calls on a fresh queue the stored items are those of a
plain list on which the same calls are done; and the next allowed, safe call returns,
failing only where there is no room. -/
theorem fifo_run {itemSize : Nat} (positive : 0 < itemSize) {s t : LinearFifo α}
    {events : List (Event α)} (initial : Initial s)
    (run : Trace (fun s op => op.Safe itemSize s) itemSize s events t) :
    ListTrace [] events t.toList ∧
      ∀ (fresh : Fresh α) (op : Op α), op.Allowed t → op.Safe itemSize t →
        ∃ out, op.call fresh itemSize t = some out ∧ (out.ok = true ↔ op.Fits t) := by
  obtain ⟨inv, isEmpty⟩ := initial.inv
  obtain ⟨tInv, spec⟩ := run.spec positive inv
  rw [isEmpty] at spec
  refine ⟨spec, ?_⟩
  intro fresh op allowed safe
  obtain ⟨out, returned, _, _, isOk⟩ := call_spec fresh tInv positive allowed safe
  exact ⟨out, returned, isOk⟩

/-- Memory of zeros. -/
def zeros : Fresh Nat := fun n => Vector.replicate n 0

/-- A written queue of which one item was read. -/
def sampleFifo : LinearFifo Nat := ⟨.dynamic, [1, 2, 3, 0], 1, 2⟩

theorem sampleFifo_run (guard : LinearFifo Nat → Op Nat → Prop)
    (write : guard initDynamic (.write [1, 2, 3]))
    (read : guard ⟨.dynamic, [1, 2, 3, 0], 0, 3⟩ .readItem) :
    Trace guard 4 initDynamic [(.write [1, 2, 3], [], true), (.readItem, [1], true)]
      sampleFifo := by
  have written : Op.call zeros 4 initDynamic (.write [1, 2, 3]) =
      some ⟨⟨.dynamic, [1, 2, 3, 0], 0, 3⟩, [], true⟩ := by decide +kernel
  have taken : Op.call zeros 4 ⟨.dynamic, [1, 2, 3, 0], 0, 3⟩ .readItem =
      some ⟨sampleFifo, [1], true⟩ := by decide +kernel
  exact .call (by trivial) write written (.call (by trivial) read taken .done)

theorem fifo_run_sample :
    ListTrace [] [(.write [1, 2, 3], [], true), (.readItem, [1], true)] sampleFifo.toList ∧
      ∀ (fresh : Fresh Nat) (op : Op Nat), op.Allowed sampleFifo → op.Safe 4 sampleFifo →
        ∃ out, op.call fresh 4 sampleFifo = some out ∧ (out.ok = true ↔ op.Fits sampleFifo) :=
  fifo_run (by decide) .dynamic (sampleFifo_run _
    ⟨fun indexes => indexes.elim, fun _ _ => by decide⟩
    ⟨fun _ => .inr (by decide), fun realigns => realigns.elim⟩)

/-! ### Where it goes wrong -/

/-- After shrinking three items to a capacity of three, discarding one keeps the wrong
two: the mask of the capacity 3 is 2. -/
theorem shrink_loses_order :
    ∃ (events : List (Event Nat)) (t : LinearFifo Nat),
      Trace (fun _ _ => True) 4 initDynamic events t ∧ ¬ListTrace [] events t.toList := by
  have written : Op.call zeros 4 initDynamic (.write [1, 2, 3]) =
      some ⟨⟨.dynamic, [1, 2, 3, 0], 0, 3⟩, [], true⟩ := by decide +kernel
  have shrunk : Op.call zeros 4 ⟨.dynamic, [1, 2, 3, 0], 0, 3⟩ (.shrink 3) =
      some ⟨⟨.dynamic, [1, 2, 3], 0, 3⟩, [], true⟩ := by decide +kernel
  have discarded : Op.call zeros 4 ⟨.dynamic, [1, 2, 3], 0, 3⟩ (.discard 1) =
      some ⟨⟨.dynamic, [1, 2, 3], 0, 2⟩, [], true⟩ := by decide +kernel
  refine ⟨_, _, .call (by trivial) trivial written (.call (by exact Nat.le_refl 3) trivial
    shrunk (.call (by exact Nat.succ_pos 2) trivial discarded .done)), ?_⟩
  rintro ⟨_, ⟨_, rfl⟩, _, ⟨_, rfl⟩, _, ⟨_, rfl⟩, isList⟩
  exact absurd (show [1, 2] = [2, 3] from isList) (by decide)

end Bunx.Collections
