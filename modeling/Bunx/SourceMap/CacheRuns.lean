/-
Module: Bunx.SourceMap.CacheRuns
Purpose: Runs of lookups, invalidations and reuses of addresses over one decode cache:
  every lookup answers as `find` does.
Trusted boundary: none
Main exports: CacheOp, World, Disciplined, CacheInv, findWithCache_spec, cache_run
-/
import Bunx.SourceMap.Find

namespace Bunx.SourceMap

open Lib

/-! ### One lookup -/

/-- A blob whose windows hold sorted mappings. -/
structure SortedBlob (blob : Blob) (ws : List Window) : Prop where
  encodes : Encodes blob ws
  sorted : Sorted (mappingsOf ws)

/-- A slot holds nothing, or a decoded start of a window and a reader behind it. -/
def SlotHolds (ws : List Window) (s : FindCacheSlot) : Prop :=
  s.decoded = [] ∨ ∃ w before last rest, ws[s.syncIdx]? = some w ∧
    s.decoded = before ++ [last] ∧ w.mappings = before ++ last :: rest ∧
    Reads (paddedStream ws) s.reader last rest

/-- A seeded slot stands in the window that was asked for. -/
theorem seed_spec {blob : Blob} {ws : List Window} {s : FindCacheSlot} {data : Addr}
    {i : Nat} {w : Window} (encodes : Encodes blob ws) (isWindow : ws[i]? = some w)
    (holds : s.data = some data → SlotHolds ws s) :
    ∃ s' before last rest, s.seed data blob i = some s' ∧ s'.data = some data ∧
      s'.syncIdx = i ∧ s'.decoded = before ++ [last] ∧
      w.mappings = before ++ last :: rest ∧
      Reads (paddedStream ws) s'.reader last rest := by
  by_cases stale : s.data ≠ some data ∨ s.syncIdx ≠ i ∨ s.decoded = []
  · obtain ⟨r, seeded, reads⟩ := encodes.reads isWindow s.reader
    refine ⟨⟨some data, i, [w.first], r⟩, [], w.first, w.rest, ?_, rfl, rfl, rfl, rfl,
      reads⟩
    rw [FindCacheSlot.seed, if_pos stale, seeded]
    rfl
  · have isData : s.data = some data := by
      apply Classical.byContradiction
      intro other
      exact stale (.inl other)
    have isIdx : s.syncIdx = i := by
      apply Classical.byContradiction
      intro other
      exact stale (.inr (.inl other))
    obtain ⟨w', before, last, rest, isWindow', decoded, split, reads⟩ :=
      (holds isData).resolve_left fun nothing => stale (.inr (.inr nothing))
    rw [isIdx, isWindow] at isWindow'
    cases isWindow'
    refine ⟨s, before, last, rest, ?_, isData, isIdx, decoded, split, reads⟩
    rw [FindCacheSlot.seed, if_neg stale]

/-- Decoding on appends mappings of the window until the target is passed. -/
theorem extend_spec {bytes : List UInt8} {line col : Int} {fuel : Nat}
    {s : FindCacheSlot} {before rest : List State} {last : State}
    (decoded : s.decoded = before ++ [last]) (reads : Reads bytes s.reader last rest)
    (room : before.length + rest.length < syncInterval) (enough : rest.length < fuel) :
    ∃ s' before' last' rest', s.extend bytes line col fuel = some s' ∧
      s'.data = s.data ∧ s'.syncIdx = s.syncIdx ∧ s'.decoded = before' ++ [last'] ∧
      before' ++ last' :: rest' = before ++ last :: rest ∧
      Reads bytes s'.reader last' rest' ∧
      (rest' = [] ∨ ¬last'.lessOrEqual line col = true) := by
  induction rest generalizing fuel s before last with
  | nil =>
      obtain ⟨fuel, rfl⟩ : ∃ n, fuel = n + 1 := ⟨fuel - 1, by omega⟩
      refine ⟨s, before, last, [], ?_, rfl, rfl, decoded, rfl, reads, .inl rfl⟩
      rw [FindCacheSlot.extend, decoded, List.getLast?_concat]
      exact if_pos (.inl (reads.done_iff.mpr rfl))
  | cons x rest ih =>
      obtain ⟨fuel, rfl⟩ : ∃ n, fuel = n + 1 := ⟨fuel - 1, by omega⟩
      have notDone : ¬s.reader.done = true := by
        rw [reads.done_iff]
        exact List.cons_ne_nil x rest
      rw [FindCacheSlot.extend, decoded, List.getLast?_concat]
      by_cases passed : last.lessOrEqual line col = true
      · obtain ⟨r, step, behind⟩ := reads.next
        have goOn : ¬(s.reader.done = true ∨ ¬last.lessOrEqual line col = true) :=
          fun found => found.elim notDone fun stop => stop passed
        simp only [List.length_cons] at room enough
        have fits : (before ++ [last]).length < syncInterval := by
          rw [List.length_append, List.length_singleton]
          omega
        obtain ⟨s', before', last', rest', extended, data, idx, isDecoded, split, reads',
          stop⟩ := ih
            (s := { s with decoded := before ++ [last] ++ [x], reader := r })
            rfl behind (by rw [List.length_append, List.length_singleton]; omega)
            (Nat.lt_of_succ_lt_succ enough)
        refine ⟨s', before', last', rest', ?_, data, idx, isDecoded, ?_, reads', stop⟩
        · simp only [if_neg goOn, step, Option.bind_eq_bind, Option.bind_some, if_pos fits]
          exact extended
        · rw [split, List.append_assoc]
          rfl
      · refine ⟨s, before, last, x :: rest, ?_, rfl, rfl, decoded, rfl, reads,
          .inr passed⟩
        exact if_pos (.inr passed)

/-- The search in sorted mappings is the abstract lookup in them. -/
theorem searchDecoded_eq {decoded : List State} (sorted : Sorted decoded)
    (line col : Int) :
    searchDecoded decoded line col = some (lookup decoded line col) := by
  have monotone : decoded.Pairwise fun a b =>
      b.lessOrEqual line col = true → a.lessOrEqual line col = true :=
    sorted.imp fun order => lessOrEqual_of_notAfter order
  let leading := decoded.takeWhile (·.lessOrEqual line col)
  have isStart : leading <+: decoded := List.takeWhile_prefix _
  have position : partitionPoint
      (fun mid => (decoded[mid]?).map (·.lessOrEqual line col)) decoded.length 0
      decoded.length = some leading.length := by
    apply partitionPoint_eq _ (Nat.zero_le _) isStart.length_le (Nat.le_refl _)
    intro i _ inside
    have isElement := List.getElem?_eq_getElem inside
    rw [isElement, Option.map_some, takeWhile_test monotone isElement]
  rw [searchDecoded, position]
  simp only [Option.bind_eq_bind, Option.bind_some]
  by_cases none : leading.length = 0
  · rw [if_pos none, lookup, show decoded.takeWhile _ = [] from
      List.eq_nil_of_length_eq_zero none]
    rfl
  · have inside : leading.length - 1 < leading.length := by omega
    have isLast : leading.getLast? = decoded[leading.length - 1]? := by
      obtain ⟨rest, whole⟩ := isStart
      rw [List.getLast?_eq_getElem?, ← whole, List.getElem?_append_left inside]
    have isElement : decoded[leading.length - 1]? = some leading[leading.length - 1] := by
      rw [← isLast, List.getLast?_eq_getElem?, List.getElem?_eq_getElem inside]
    rw [if_neg none, isElement, lookup, show (decoded.takeWhile _).getLast? = _ from isLast,
      isElement]
    rfl

/-! ### The cache as a whole -/

/-- The slot that is handed out has the key; keys of other slots and all slots stay. -/
theorem slotFor_spec (c : FindCache) (data : Addr) (syncIdx : Nat) :
    ∃ i c', c.slotFor data syncIdx = (i, c') ∧ c'.slots = c.slots ∧
      (c'.keys i).data = some data ∧ ∀ j, j ≠ i → c'.keys j = c.keys j := by
  unfold FindCache.slotFor
  split
  · next i found =>
      have isKey := List.find?_some found
      simp only [decide_eq_true_eq] at isKey
      exact ⟨i, c, rfl, rfl, by rw [isKey], fun _ _ => rfl⟩
  · split
    · next i _ =>
        refine ⟨i, _, rfl, rfl, ?_, fun j other => Function.update_of_ne other _ _⟩
        simp only [Function.update_self]
    · refine ⟨c.nextVictim, _, rfl, rfl, ?_, fun j other => Function.update_of_ne other _ _⟩
      simp only [Function.update_self]

/-- Every slot in use is named by its key, belongs to an address that was looked up
since it was last forgotten, and holds a decoded start of that blob's window. -/
structure CacheInv (heap : Addr → Option Blob) (seen : Addr → Bool) (c : FindCache) :
    Prop where
  keys : ∀ j, (c.slots j).data = (c.keys j).data
  slots : ∀ j data, (c.slots j).data = some data → seen data = true ∧
    ∃ blob ws, heap data = some blob ∧ SortedBlob blob ws ∧ SlotHolds ws (c.slots j)

theorem cacheInv_empty (heap : Addr → Option Blob) (seen : Addr → Bool) :
    CacheInv heap seen .empty where
  keys := fun _ => rfl
  slots := fun _ _ isData => by cases isData

/-- What a lookup leaves in its slot. -/
theorem CacheInv.update {heap : Addr → Option Blob} {seen : Addr → Bool}
    {c c' : FindCache} (inv : CacheInv heap seen c) {data : Addr} {blob : Blob}
    {ws : List Window} (live : heap data = some blob) (sorted : SortedBlob blob ws)
    {i : Fin slotCount} {s : FindCacheSlot} (sameSlots : c'.slots = c.slots)
    (isKey : (c'.keys i).data = some data) (sameKeys : ∀ j, j ≠ i → c'.keys j = c.keys j)
    (isData : s.data = some data) (holds : SlotHolds ws s) :
    CacheInv heap (Function.update seen data true)
      { c' with slots := Function.update c'.slots i s } := by
  constructor
  · intro j
    by_cases same : j = i
    · subst same
      simp only [Function.update_self, isData, isKey]
    · simp only [Function.update_of_ne same, sameSlots, sameKeys j same, inv.keys j]
  · intro j data' isData'
    by_cases same : j = i
    · subst same
      simp only [Function.update_self, isData, Option.some.injEq] at isData' ⊢
      subst isData'
      exact ⟨Function.update_self .., blob, ws, live, sorted, holds⟩
    · simp only [Function.update_of_ne same, sameSlots] at isData' ⊢
      obtain ⟨isSeen, blob', ws', live', sorted', holds'⟩ := inv.slots j data' isData'
      refine ⟨?_, blob', ws', live', sorted', holds'⟩
      by_cases sameData : data' = data
      · rw [sameData, Function.update_self]
      · rw [Function.update_of_ne sameData, isSeen]

/-- A decoded start of a window that was extended past the target, or to the window's
end, decides the lookup. -/
theorem lookup_decoded {ws : List Window} {i : Nat} {w : Window} {line col : Int}
    (sorted : Sorted (mappingsOf ws)) (isWindow : ws[i]? = some w)
    (reached : w.first.lessOrEqual line col = true)
    (stopLater : ∀ x, (mappingsOf (ws.drop (i + 1))).head? = some x →
      ¬x.lessOrEqual line col = true) {before rest : List State} {last : State}
    (split : w.mappings = before ++ last :: rest)
    (stop : rest = [] ∨ ¬last.lessOrEqual line col = true) :
    lookup (mappingsOf ws) line col = lookup (before ++ [last]) line col ∧
      Sorted (before ++ [last]) := by
  have isWhole := window_split isWindow
  rw [show w.first :: w.rest = before ++ last :: rest from split] at isWhole
  obtain ⟨tail, isFirst⟩ : ∃ tail, before ++ [last] = w.first :: tail := by
    cases before with
    | nil =>
        have same : w.first = last := (List.cons.inj split).1
        exact ⟨[], by rw [same]; rfl⟩
    | cons x before =>
        have same : w.first = x := (List.cons.inj split).1
        exact ⟨before ++ [last], by rw [same]; rfl⟩
  have whole : mappingsOf ws = mappingsOf (ws.take i) ++
      (w.first :: tail ++ (rest ++ mappingsOf (ws.drop (i + 1)))) := by
    rw [isWhole, ← isFirst]
    simp
  rw [whole] at sorted
  have inOrder := (List.pairwise_append.mp sorted).2.1
  have stopRest : ∀ x, rest.head? = some x → ¬x.lessOrEqual line col = true := by
    intro x isHead
    rcases stop with rfl | passed
    · cases isHead
    · intro xReached
      have lastIn : last ∈ w.first :: tail := by
        rw [← isFirst]
        exact List.mem_append_right _ (List.mem_cons_self ..)
      have xIn : x ∈ rest ++ mappingsOf (ws.drop (i + 1)) :=
        List.mem_append_left _ (List.mem_of_mem_head? isHead)
      have order := (List.pairwise_append.mp inOrder).2.2 last lastIn x xIn
      exact passed (lessOrEqual_of_notAfter order xReached)
  rw [whole, isFirst]
  constructor
  · exact lookup_middle sorted reached (stop_append stopRest stopLater)
  · exact (List.pairwise_append.mp inOrder).1

/-- A cached lookup answers as `find` does and keeps the cache sound. -/
theorem findWithCache_spec {heap : Addr → Option Blob} {seen : Addr → Bool}
    {c : FindCache} (inv : CacheInv heap seen c) {data : Addr} {blob : Blob}
    {ws : List Window} (live : heap data = some blob) (sorted : SortedBlob blob ws)
    (line col : Int) :
    ∃ found c', findWithCache data blob line col c = some (found, c') ∧
      find blob line col = some found ∧
      CacheInv heap (Function.update seen data true) c' := by
  rcases locateWindow_spec sorted.encodes.stores sorted.sorted line col with
    ⟨located, stop⟩ | ⟨i, _, located, _, _, _⟩
  · refine ⟨none, c, ?_, ?_, ⟨inv.keys, ?_⟩⟩
    · rw [findWithCache, located]
      rfl
    · rw [find, located]
      rfl
    · intro j data' isData
      obtain ⟨isSeen, rest⟩ := inv.slots j data' isData
      refine ⟨?_, rest⟩
      by_cases same : data' = data
      · rw [same, Function.update_self]
      · rw [Function.update_of_ne same, isSeen]
  · obtain ⟨j, c', picked, sameSlots, isKey, sameKeys⟩ := slotFor_spec c data i
    -- a slot of this address speaks of the blob that lives there
    obtain ⟨ws, sorted, holds⟩ : ∃ ws, SortedBlob blob ws ∧
        ((c.slots j).data = some data → SlotHolds ws (c.slots j)) := by
      by_cases isData : (c.slots j).data = some data
      · obtain ⟨_, blob', ws', live', sorted', holds'⟩ := inv.slots j data isData
        rw [live] at live'
        cases live'
        exact ⟨ws', sorted', fun _ => holds'⟩
      · exact ⟨ws, sorted, fun same => absurd same isData⟩
    rcases locateWindow_spec sorted.encodes.stores sorted.sorted line col with
      ⟨located', _⟩ | ⟨i', w, located', isWindow, reached, stopLater⟩
    · rw [located] at located'
      cases located'
    · rw [located] at located'
      cases located'
      obtain ⟨s, before, last, rest, seeded, isData, isIdx, decoded, split, reads⟩ :=
        seed_spec sorted.encodes isWindow holds
      have few : before.length + rest.length < syncInterval := by
        have length := congrArg List.length split
        have wFew := w.few
        simp only [Window.mappings, List.length_cons, List.length_append] at length
        omega
      obtain ⟨s', before', last', rest', extended, isData', isIdx', decoded', split',
        reads', stop⟩ := extend_spec decoded reads few
          (show rest.length < syncInterval + 1 by omega)
      have whole := split.trans split'.symm
      obtain ⟨sameLookup, inOrder⟩ :=
        lookup_decoded sorted.sorted isWindow reached stopLater whole stop
      have answer := find_eq_lookup sorted.encodes sorted.sorted line col
      refine ⟨lookup (mappingsOf ws) line col, _, ?_, answer, inv.update live sorted
        sameSlots isKey sameKeys (isData'.trans isData) (s := s') (.inr ?_)⟩
      · rw [findWithCache, located]
        simp only [Option.bind_eq_bind, Option.bind_some, picked, sameSlots, seeded,
          sorted.encodes.stream, extended, decoded', searchDecoded_eq inOrder, sameLookup]
        rfl
      · refine ⟨w, before', last', rest', ?_, decoded', whole, reads'⟩
        rw [isIdx', isIdx]
        exact isWindow

/-! ### Runs -/

/-- What happens to the blobs and the cache of one program. -/
inductive CacheOp where
  /-- A blob comes to live at an address. -/
  | place (data : Addr) (blob : Blob)
  | lookup (data : Addr) (line col : Int)
  | invalidate (data : Addr)
  | invalidateAll

/-- The live blobs and the cache. -/
structure World where
  heap : Addr → Option Blob
  cache : FindCache

/-- One operation and what its lookup answers. -/
def World.step (w : World) : CacheOp → Option (List (Option Mapping) × World)
  | .place data blob => some ([], { w with heap := Function.update w.heap data (some blob) })
  | .lookup data line col => do
      let blob ← w.heap data
      let (found, cache) ← findWithCache data blob line col w.cache
      return ([found], { w with cache := cache })
  | .invalidate data => some ([], { w with cache := w.cache.invalidate data })
  | .invalidateAll => some ([], { w with cache := w.cache.invalidateAll })

/-- The answers of all lookups of a run. -/
def World.run (w : World) : List CacheOp → Option (List (Option Mapping))
  | [] => some []
  | op :: ops => do
      let (found, w) ← w.step op
      let more ← w.run ops
      return found ++ more

/-- The answers of `find` to the same lookups. -/
def findAll (heap : Addr → Option Blob) : List CacheOp → Option (List (Option Mapping))
  | [] => some []
  | .place data blob :: ops => findAll (Function.update heap data (some blob)) ops
  | .lookup data line col :: ops => do
      let blob ← heap data
      let found ← find blob line col
      let more ← findAll heap ops
      return found :: more
  | .invalidate _ :: ops => findAll heap ops
  | .invalidateAll :: ops => findAll heap ops

/-- Only blobs of `good` are placed, at addresses that were not looked up since they
were last invalidated, and lookups go to live blobs. -/
def Disciplined (good : Blob → Prop) : (Addr → Option Blob) → (Addr → Bool) →
    List CacheOp → Prop
  | _, _, [] => True
  | heap, seen, .place data blob :: ops =>
      good blob ∧ seen data = false ∧
        Disciplined good (Function.update heap data (some blob)) seen ops
  | heap, seen, .lookup data _ _ :: ops =>
      heap data ≠ none ∧ Disciplined good heap (Function.update seen data true) ops
  | heap, seen, .invalidate data :: ops =>
      Disciplined good heap (Function.update seen data false) ops
  | heap, _, .invalidateAll :: ops => Disciplined good heap (fun _ => false) ops

/-- No slot speaks of an address that may be reused. -/
theorem CacheInv.place {heap : Addr → Option Blob} {seen : Addr → Bool} {c : FindCache}
    (inv : CacheInv heap seen c) {data : Addr} (blob : Blob) (fresh : seen data = false) :
    CacheInv (Function.update heap data (some blob)) seen c := by
  refine ⟨inv.keys, fun j data' isData => ?_⟩
  obtain ⟨isSeen, blob', ws, live, rest⟩ := inv.slots j data' isData
  have other : data' ≠ data := by
    intro same
    rw [same, fresh] at isSeen
    cases isSeen
  refine ⟨isSeen, blob', ws, ?_, rest⟩
  rw [Function.update_of_ne other]
  exact live

theorem CacheInv.invalidate {heap : Addr → Option Blob} {seen : Addr → Bool}
    {c : FindCache} (inv : CacheInv heap seen c) (data : Addr) :
    CacheInv heap (Function.update seen data false) (c.invalidate data) := by
  constructor
  · intro j
    simp only [FindCache.invalidate]
    split
    · rfl
    · exact inv.keys j
  · intro j data' isData
    simp only [FindCache.invalidate] at isData ⊢
    by_cases isKey : (c.keys j).data = some data
    · rw [if_pos isKey] at isData
      cases isData
    · rw [if_neg isKey] at isData ⊢
      obtain ⟨isSeen, rest⟩ := inv.slots j data' isData
      have other : data' ≠ data := by
        intro same
        rw [inv.keys j, same] at isData
        exact isKey isData
      refine ⟨?_, rest⟩
      rw [Function.update_of_ne other]
      exact isSeen

theorem CacheInv.invalidateAll {heap : Addr → Option Blob} {seen : Addr → Bool}
    {c : FindCache} : CacheInv heap seen c.invalidateAll where
  keys := fun _ => rfl
  slots := fun _ _ isData => by cases isData

/-- Every lookup of a run answers as `find` does. -/
theorem cache_run {good : Blob → Prop} (sorted : ∀ blob, good blob → ∃ ws, SortedBlob blob ws)
    {ops : List CacheOp} {w : World} {seen : Addr → Bool}
    (inv : CacheInv w.heap seen w.cache)
    (live : ∀ data blob, w.heap data = some blob → good blob)
    (disciplined : Disciplined good w.heap seen ops) :
    ∃ answers, w.run ops = some answers ∧ findAll w.heap ops = some answers := by
  induction ops generalizing w seen with
  | nil => exact ⟨[], rfl, rfl⟩
  | cons op ops ih =>
      cases op with
      | place data blob =>
          obtain ⟨isGood, fresh, later⟩ := disciplined
          let w' : World := { w with heap := Function.update w.heap data (some blob) }
          have liveLater : ∀ data' blob', w'.heap data' = some blob' → good blob' := by
            intro data' blob' isBlob
            by_cases same : data' = data
            · simp only [w', same, Function.update_self, Option.some.injEq] at isBlob
              exact isBlob ▸ isGood
            · simp only [w', Function.update_of_ne same] at isBlob
              exact live data' blob' isBlob
          obtain ⟨answers, ran, found⟩ :=
            ih (inv.place blob fresh) liveLater later (w := w')
          refine ⟨answers, ?_, found⟩
          rw [World.run, World.step]
          simp only [Option.bind_eq_bind, Option.bind_some]
          rw [ran]
          rfl
      | lookup data line col =>
          obtain ⟨notNone, later⟩ := disciplined
          obtain ⟨blob, isBlob⟩ := Option.ne_none_iff_exists'.mp notNone
          obtain ⟨ws, isSorted⟩ := sorted blob (live data blob isBlob)
          obtain ⟨found, cache, answered, direct, invLater⟩ :=
            findWithCache_spec inv isBlob isSorted line col
          obtain ⟨answers, ran, rest⟩ := ih
            (w := { w with cache := cache }) invLater live later
          refine ⟨found :: answers, ?_, ?_⟩
          · rw [World.run, World.step]
            simp only [Option.bind_eq_bind, isBlob, Option.bind_some, answered]
            rw [Option.pure_def, Option.bind_some, ran]
            rfl
          · rw [findAll, isBlob]
            simp only [Option.bind_eq_bind, Option.bind_some, direct]
            rw [rest]
            rfl
      | invalidate data =>
          obtain ⟨answers, ran, found⟩ := ih
            (w := { w with cache := w.cache.invalidate data }) (inv.invalidate data) live
            disciplined
          refine ⟨answers, ?_, found⟩
          rw [World.run, World.step]
          simp only [Option.bind_eq_bind, Option.bind_some]
          rw [ran]
          rfl
      | invalidateAll =>
          obtain ⟨answers, ran, found⟩ := ih
            (w := { w with cache := w.cache.invalidateAll }) CacheInv.invalidateAll live
            disciplined
          refine ⟨answers, ?_, found⟩
          rw [World.run, World.step]
          simp only [Option.bind_eq_bind, Option.bind_some]
          rw [ran]
          rfl

end Bunx.SourceMap
