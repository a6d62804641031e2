/-
Module: Bunx.Install.HoistTermination
Purpose: When the breadth-first loop of Lockfile::hoist ends, and a version
  cycle on which it never does.
Trusted boundary: none
Main exports:
  Builder.view, Birth, Traced, Traced.Fresh, hoist_terminates,
  versionCycle_diverges
-/
import Mathlib.Algebra.BigOperators.Group.Finset.Basic
import Mathlib.Algebra.Order.BigOperators.Group.Finset
import Mathlib.Tactic.IntervalCases
import Bunx.Lib.Forest
import Bunx.Install.Occurrences

namespace Bunx.Install

open Lib

variable (L : Lockfile)

/-- What climbs from a tree to the hoist root meet first, one entry for each
dependency name of the lockfile. -/
def Builder.view (b : Builder) (hoistRootId : Option Id) (id : Id) :
    List (Option DependencyID) :=
  (List.range L.dependencies.length).map fun d =>
    (b.climb L hoistRootId (L.dep d).nameHash b.list.length id).dep

/-- The dependency a tree is filled for, and the view of the tree it is placed
in at that moment. -/
abbrev Birth := DependencyID × List (Option DependencyID)

def Builder.birth (b : Builder) (item : FillItem) : Birth :=
  (item.dependencyId, b.view L item.hoistRootId item.treeId)

/-- A machine state with its history: for each tree its own birth and those of
the trees above it, and how many items were read off the queue. -/
structure Traced where
  machine : Machine
  lines : List (List Birth)
  reads : Nat

namespace Traced

variable (method : BuilderMethod)

def line (t : Traced) (id : Id) : List Birth := t.lines.getD id []

/-- The history after a step to `m`: reading an item may open a tree. -/
def advance (t : Traced) (m : Machine) : Traced :=
  match t.machine.frame, t.machine.builder.queue with
  | none, item :: _ =>
      { machine := m
        lines := t.lines.take t.machine.builder.list.length ++
          [t.machine.builder.birth L item :: t.line item.treeId]
        reads := t.reads + 1 }
  | _, _ => { t with machine := m }

def Step (t t' : Traced) : Prop :=
  Machine.Step L method t.machine t'.machine ∧ t' = t.advance L t'.machine

def start : Traced :=
  { machine := Machine.start L, lines := [[(rootDepId, [])]], reads := 0 }

/-- The next item does not repeat the birth of a tree it lies below. -/
def Fresh (t : Traced) : Bool :=
  match t.machine.frame, t.machine.builder.queue with
  | none, item :: _ =>
      !(t.line item.treeId).contains (t.machine.builder.birth L item)
  | _, _ => true

def next (t : Traced) : Option Traced :=
  (Machine.next L method t.machine).map (t.advance L)

variable {L} {method}

theorem Step.next_eq {t t' : Traced} (step : Step L method t t') :
    next L method t = some t' := by
  rw [next, step.1.next_eq, Option.map_some, ← step.2]

/-- Every run of the builder has a history. -/
theorem run_traced {m m' : Machine} (run : Run (Machine.Step L method) m m')
    (t : Traced) (same : t.machine = m) :
    ∃ t', Run (Step L method) t t' ∧ t'.machine = m' ∧ t.reads ≤ t'.reads := by
  induction run with
  | refl => exact ⟨t, .refl, same, Nat.le_refl _⟩
  | @tail u m' _ last ih =>
      rcases ih with ⟨t', before, rfl, reads⟩
      have isMachine : (t'.advance L m').machine = m' := by
        unfold advance
        split <;> rfl
      refine ⟨t'.advance L m', before.tail ⟨?_, ?_⟩, isMachine, ?_⟩
      · rw [isMachine]
        exact last
      · rw [isMachine]
      · refine Nat.le_trans reads ?_
        unfold advance
        split <;> simp

/-- A loop that has not ended after `fuel` turns has read that many items. -/
theorem hoistLoop_none {fuel : Nat} {b : Builder}
    (unfinished : hoistLoop L method fuel b = none) (t : Traced)
    (same : t.machine = { builder := b }) :
    ∃ t', Run (Step L method) t t' ∧ t.reads + fuel ≤ t'.reads := by
  induction fuel generalizing b t with
  | zero => exact ⟨t, .refl, Nat.le_refl _⟩
  | succ fuel ih =>
      simp only [hoistLoop] at unfinished
      split at unfinished
      · cases unfinished
      · rename_i item queue front
        split at unfinished
        · cases unfinished
        · rename_i middle first
          let m := Machine.enter L (some (b.tree item.treeId).id)
            item.dependencyId item.hoistRootId { b with queue := queue }
          have advanced : (t.advance L m).machine = m ∧
              (t.advance L m).reads = t.reads + 1 := by
            simp [advance, same, front]
          have read : Step L method t (t.advance L m) := by
            rw [Step, advanced.1, same]
            exact ⟨.read b item queue front, rfl⟩
          rcases run_traced (processSubtree_run first) (t.advance L m)
            advanced.1 with ⟨u, inside, isMachine, reads⟩
          rcases ih unfinished u isMachine with
            ⟨t', rest, more⟩
          refine ⟨t', Relation.ReflTransGen.head read (inside.trans rest), ?_⟩
          have counted := advanced.2
          omega

end Traced

/-! ### Births -/

section Births

/-- The births a run over a lockfile can see: finitely many. -/
noncomputable def births : Finset Birth :=
  insert (rootDepId, [])
    (Finset.range L.dependencies.length ×ˢ
      (words_finite (insert none ((Finset.range L.dependencies.length).image some))
        (L.dependencies.length + 1)).toFinset)

variable {L}

theorem Builder.birth_mem {b : Builder} (shape : b.Shape)
    (known : ∀ i, ∀ d ∈ b.placed i, d < L.dependencies.length) {item : FillItem}
    (placed : item.dependencyId ∈ b.placed item.treeId) :
    b.birth L item ∈ births L := by
  refine Finset.mem_insert_of_mem (Finset.mem_product.mpr ⟨?_, ?_⟩)
  · exact Finset.mem_range.mpr (known _ _ placed)
  · rw [Set.Finite.mem_toFinset]
    refine ⟨by simp [birth, view], ?_⟩
    intro entry member
    rcases List.mem_map.mp member with ⟨e, _, rfl⟩
    have climb := b.climb_spec (L := L) shape item.hoistRootId (L.dep e).nameHash
      (Nat.le_of_lt (b.lt_of_mem_placed placed))
    cases found : b.climb L item.hoistRootId (L.dep e).nameHash b.list.length
        item.treeId with
    | top => exact Finset.mem_insert_self _ _
    | entry i d =>
        rw [found] at climb
        have isPlaced := (lookHere_some climb.entry_spec).1
        exact Finset.mem_insert_of_mem (Finset.mem_image.mpr
          ⟨d, Finset.mem_range.mpr (known i d isPlaced), rfl⟩)

end Births

/-! ### The number of placed dependencies -/

/-- How many dependencies are placed. -/
def Builder.total (b : Builder) : Nat :=
  ∑ i ∈ Finset.range b.list.length, (b.placed i).length

namespace Builder

variable {b b' : Builder}

theorem total_congr (same : b'.list = b.list) : b'.total = b.total := by
  simp only [total, same, placed_congr same]

theorem total_place {id : Nat} (inside : id < b.list.length) (d : DependencyID) :
    (b.place id d).total = b.total + 1 := by
  have placedLength (i : Nat) : ((b.place id d).placed i).length =
      (b.placed i).length + if i = id then 1 else 0 := by
    by_cases same : i = id
    · subst same
      simp [b.place_placed_self d inside]
    · simp [b.place_placed_of_ne d same, same]
  simp only [total, placedLength, place_length, Finset.sum_add_distrib,
    Finset.sum_ite_eq', Finset.mem_range]
  rw [if_pos inside]

theorem total_openTree (parent : Option Id) (d : DependencyID) :
    (b.openTree parent d).total = b.total := by
  simp [total, Finset.sum_range_succ, openTree_placed, placed_of_length_le]

theorem total_closeTree (shape : b.Shape) {nextId : Nat}
    (last : nextId + 1 = b.list.length) : (b.closeTree nextId).total = b.total := by
  have placed := closeTree_placed shape last
  by_cases empty : (b.tree nextId).dependencies.len = 0
  · have none : b.placed nextId = [] := by
      rw [shape.slice_eq nextId] at empty
      exact List.length_eq_zero_iff.mp empty
    have length : (b.closeTree nextId).list.length = nextId := by
      rw [closeTree, if_pos empty, List.length_dropLast]
      omega
    simp only [total, placed, length, ← last, Finset.sum_range_succ, none,
      List.length_nil, Nat.add_zero]
  · rw [closeTree, if_neg empty]

/-- No tree lists more ids than there are dependencies. -/
theorem total_le (known : ∀ i, ∀ d ∈ b.placed i, d < L.dependencies.length)
    (once : ∀ i, (b.placed i).Nodup) :
    b.total ≤ b.list.length * L.dependencies.length := by
  have each (i : Nat) : (b.placed i).length ≤ L.dependencies.length := by
    have subset : b.placed i ⊆ List.range L.dependencies.length := by
      intro d member
      exact List.mem_range.mpr (known i d member)
    simpa using ((once i).subperm subset).length_le
  calc b.total ≤ ∑ _i ∈ Finset.range b.list.length, L.dependencies.length :=
        Finset.sum_le_sum fun i _ => each i
    _ = b.list.length * L.dependencies.length := by simp

end Builder

/-! ### The invariant -/

section Invariant

variable {L}

/-- Each tree's line is its own birth on top of its parent's line, and no birth
repeats in it. -/
structure Lines (L : Lockfile) (b : Builder) (lines : List (List Birth)) : Prop where
  covers : b.list.length ≤ lines.length
  branch : ∀ i p : Nat, i < b.list.length → (b.tree i).parent = some p →
    ∃ birth, lines.getD i [] = birth :: lines.getD p []
  lined : ∀ i : Nat, i < b.list.length → lines.getD i [] ≠ [] ∧
    (lines.getD i []).Nodup ∧ ∀ birth ∈ lines.getD i [], birth ∈ births L

/-- Only the parents of the trees matter. -/
theorem Lines.congr {b b' : Builder} {lines : List (List Birth)}
    (inv : Lines L b lines) (length : b'.list.length ≤ b.list.length)
    (parent : ∀ i : Nat, i < b'.list.length →
      (b'.tree i).parent = (b.tree i).parent) : Lines L b' lines where
  covers := Nat.le_trans length inv.covers
  branch i p inside isParent := inv.branch i p (Nat.lt_of_lt_of_le inside length)
    (parent i inside ▸ isParent)
  lined i inside := inv.lined i (Nat.lt_of_lt_of_le inside length)

/-- The history may grow beyond the trees that exist. -/
theorem Lines.take {b : Builder} {lines : List (List Birth)}
    (shape : b.Shape) (inv : Lines L b lines) (line : List Birth) :
    Lines L b (lines.take b.list.length ++ [line]) ∧
      ∀ i : Nat, i < b.list.length →
        (lines.take b.list.length ++ [line]).getD i [] = lines.getD i [] := by
  have covers := inv.covers
  have same (i : Nat) (inside : i < b.list.length) :
      (lines.take b.list.length ++ [line]).getD i [] = lines.getD i [] := by
    have before : i < (lines.take b.list.length).length := by
      rw [List.length_take]
      omega
    simp [List.getElem?_append_left before, inside]
  refine ⟨⟨by simp; omega, ?_, ?_⟩, same⟩
  · intro i p inside isParent
    rw [same i inside,
      same p (Nat.lt_trans (shape.parent_lt i p isParent) inside)]
    exact inv.branch i p inside isParent
  · intro i inside
    rw [same i inside]
    exact inv.lined i inside

/-- A fresh birth begins the line of a new tree. -/
theorem Lines.openTree {b : Builder} {lines : List (List Birth)} (shape : b.Shape)
    (inv : Lines L b lines) {p : Nat} (inside : p < b.list.length)
    (dependencyId : DependencyID) {birth : Birth} (isBirth : birth ∈ births L)
    (fresh : birth ∉ lines.getD p []) :
    Lines L (b.openTree (some p) dependencyId)
      (lines.take b.list.length ++ [birth :: lines.getD p []]) := by
  rcases Lines.take shape inv (birth :: lines.getD p []) with ⟨old, same⟩
  have covers := inv.covers
  have new : (lines.take b.list.length ++ [birth :: lines.getD p []]).getD
      b.list.length [] = birth :: lines.getD p [] := by
    have taken : (lines.take b.list.length).length = b.list.length := by
      rw [List.length_take]
      omega
    simp [taken]
  refine ⟨by simp [covers], ?_, ?_⟩
  · intro i q before isParent
    by_cases isNew : i = b.list.length
    · subst isNew
      rw [Builder.tree, Builder.openTree_entry_new] at isParent
      cases isParent
      exact ⟨birth, by rw [new, same p inside]⟩
    · rw [Builder.tree, b.openTree_entry_of_ne _ _ isNew] at isParent
      rw [Builder.openTree_length] at before
      exact old.branch i q (by omega) isParent
  · intro i before
    by_cases isNew : i = b.list.length
    · subst isNew
      rcases inv.lined p inside with ⟨_, nodup, members⟩
      rw [new]
      refine ⟨by simp, List.nodup_cons.mpr ⟨fresh, nodup⟩, ?_⟩
      intro other member
      rcases List.mem_cons.mp member with rfl | above
      · exact isBirth
      · exact members other above
    · rw [Builder.openTree_length] at before
      exact old.lined i (by omega)

/-- Few trees can exist, and every item read was a placed dependency. -/
structure Traced.Bounded (L : Lockfile) (t : Traced) : Prop where
  linked : Machine.Linked L t.machine
  lines : Lines L t.machine.builder t.lines
  count : t.reads + t.machine.builder.queue.length ≤ t.machine.builder.total

theorem Builder.enqueue_queue_length_le (b : Builder) (pkgId : PackageID)
    (item : FillItem) : (b.enqueue L pkgId item).queue.length ≤
      b.queue.length + 1 := by
  unfold enqueue
  split <;> simp

/-- A turn of the `'dep` loop queues at most as much as it places. -/
theorem DepTurn.count {nextId : Id} {hoistRootId : Option Id} {d : DependencyID}
    {b b' : Builder} (turn : DepTurn L nextId hoistRootId d b b') (shape : b.Shape)
    (last : nextId + 1 = b.list.length) :
    b'.list.length = b.list.length ∧
      (∀ i, (b'.tree i).parent = (b.tree i).parent) ∧
      b'.queue.length + b.total ≤ b.queue.length + b'.total := by
  cases turn with
  | unplaced list queue _ =>
      refine ⟨by rw [list], fun i => by rw [Builder.tree_congr list], ?_⟩
      rw [queue, Builder.total_congr list]
  | placed dest destination result =>
      have list : b'.list = (b.place dest.id d).list :=
        result ▸ applyHoisted_placement_list b hoistRootId d dest
      have inside : dest.id < b.list.length := by
        have next : nextId < b.list.length := Nat.lt_of_succ_le (Nat.le_of_eq last)
        rcases destination with same | climb
        · rw [same]
          exact next
        · exact Nat.lt_of_le_of_lt (climb.top_le shape) next
      have queue : b'.queue.length ≤ b.queue.length + 1 :=
        result ▸ (b.place dest.id d).enqueue_queue_length_le _ _
      have total : b'.total = b.total + 1 := by
        rw [Builder.total_congr list, Builder.total_place inside]
      refine ⟨by simp [list], fun i => ?_, by omega⟩
      rw [Builder.tree_congr list, (b.place_tree dest.id i d).2.1]

theorem bounded_step (resolved : L.Resolved) {method : BuilderMethod}
    {t t' : Traced} (step : Traced.Step L method t t') (fresh : t.Fresh L = true)
    (inv : t.Bounded L) : t'.Bounded L := by
  rcases t with ⟨machine, lines, reads⟩
  rcases t' with ⟨machine', lines', reads'⟩
  rcases step with ⟨step, same⟩
  have linked := linked_step resolved step inv.linked
  rcases inv with ⟨before, inv, count⟩
  simp only at step same linked inv count before
  cases step with
  | read b item queue front =>
      simp only [Traced.advance, front, Traced.mk.injEq, true_and] at same
      rcases same with ⟨rfl, rfl⟩
      rcases linked_pop before front with ⟨popped, placed, _⟩
      have inside := b.lt_of_mem_placed placed
      have isFresh : b.birth L item ∉ lines.getD item.treeId [] := by
        simpa [Traced.Fresh, front, Traced.line] using fresh
      have popLines : Lines L { b with queue := queue } lines :=
        inv.congr (Nat.le_refl _) fun _ _ => rfl
      have counted : reads + 1 + queue.length ≤ b.total := by
        simp only [front, List.length_cons] at count
        omega
      refine ⟨linked, ?_, ?_⟩
      · simp only [Machine.enter, before.shape.id_eq _ inside]
        split
        · exact (Lines.take popped.shape popLines _).1
        · exact Lines.openTree popped.shape popLines inside _
            (Builder.birth_mem before.shape before.known placed) isFresh
      · simp only [Machine.enter]
        split
        · exact counted
        · rw [Builder.total_openTree]
          exact counted
  | dep b b' f d rest front processed =>
      simp only [Traced.advance, Traced.mk.injEq, true_and] at same
      rcases same with ⟨rfl, rfl⟩
      rcases (linked_dep resolved before front processed).1.count before.shape
        (before.frame f rfl).last with ⟨length, parents, counted⟩
      refine ⟨linked, inv.congr (Nat.le_of_eq length) fun i _ => parents i, ?_⟩
      simp only at count ⊢
      omega
  | close b f finished =>
      simp only [Traced.advance, Traced.mk.injEq, true_and] at same
      rcases same with ⟨rfl, rfl⟩
      refine ⟨linked, inv.congr (Builder.closeTree_length_le b f.nextId)
        fun i inside => by rw [Builder.closeTree_tree f.nextId inside], ?_⟩
      simp only [Builder.closeTree_queue,
        Builder.total_closeTree before.shape (before.frame f rfl).last]
      exact count

theorem bounded_start : (Traced.start L).Bounded L := by
  have covers : (Machine.start L).builder.list.length ≤ 1 := by
    by_cases empty :
        (L.resolutionList ((Builder.init L).parentPkgId rootDepId)).len = 0
    · rw [Machine.start, Machine.enter, if_pos empty]
      simp [Builder.init]
    · rw [Machine.start, Machine.enter, if_neg empty]
      simp [Builder.init]
  have queue : (Machine.start L).builder.queue = [] := by
    simp only [Machine.start, Machine.enter]
    split <;> rfl
  refine ⟨linked_start, ⟨covers, ?_, ?_⟩, ?_⟩
  · intro i p inside isParent
    have isRoot : i = 0 := by
      simp only [Traced.start] at inside
      omega
    subst isRoot
    have root : ((Machine.start L).builder.tree 0).parent = none :=
      linked_start.root
    rw [Traced.start, root] at isParent
    cases isParent
  · intro i inside
    have isRoot : i = 0 := by
      simp only [Traced.start] at inside
      omega
    subst isRoot
    simp [Traced.start, births]
  · simp [Traced.start, queue]

/-- The births above a tree come after its own in its line. -/
theorem Lines.ancestor {b : Builder} {lines : List (List Birth)} (shape : b.Shape)
    (inv : Lines L b lines) {i a : Nat} (inside : i < b.list.length)
    (above : Ancestor (fun i => (b.tree i).parent) i a) :
    ∃ birth between, lines.getD i [] = birth :: between ++ lines.getD a [] := by
  induction above with
  | @single p isParent =>
      rcases inv.branch i p inside isParent with ⟨birth, line⟩
      exact ⟨birth, [], line⟩
  | @tail p q before isParent ih =>
      rcases ih with ⟨birth, between, line⟩
      have pInside : p < b.list.length :=
        Nat.lt_trans (Ancestor.lt shape.parent_lt before) inside
      rcases inv.branch p q pInside isParent with ⟨own, line'⟩
      refine ⟨birth, between ++ [own], ?_⟩
      rw [line, line']
      simp

/-- How many items a run over a lockfile can read. -/
noncomputable def readBound (L : Lockfile) : Nat :=
  (words (Finset.range L.dependencies.length) (births L).card).ncard *
    L.dependencies.length

theorem Traced.Bounded.reads_le {t : Traced} (inv : t.Bounded L) :
    t.reads ≤ readBound L := by
  rcases inv with ⟨linked, lines, count⟩
  have shape := linked.shape
  -- a tree is a word of dependency ids, and its line bounds the word's length
  have trees : t.machine.builder.list.length ≤
      (words (Finset.range L.dependencies.length) (births L).card).ncard := by
    refine forest_bounded (fun i => (t.machine.builder.tree i).parent)
      (fun i => (t.machine.builder.tree i).dependencyId)
      (fun i => (t.line i).headD (rootDepId, [])) _ _ shape.parent_lt ?_ ?_ ?_ ?_ ?_
    · intro i inside isRoot
      by_contra notFirst
      exact linked.single i (Nat.pos_of_ne_zero notFirst) inside isRoot
    · intro i iInside j jInside p iParent jParent sameLetter
      apply Builder.filled_inj linked.distinct.of_append_left iInside jInside
      rw [iParent, jParent, sameLetter]
    · intro i inside p isParent
      have pair : (some p, (t.machine.builder.tree i).dependencyId) ∈
          t.machine.builder.filled := by
        rw [← isParent]
        exact List.mem_of_getElem? (Builder.filled_eq _ inside)
      exact Finset.mem_range.mpr (linked.known p _
        (linked.below p _ (List.mem_append_left _ pair)))
    · intro i inside
      rcases lines.lined i inside with ⟨nonempty, _, members⟩
      show (t.lines.getD i []).headD _ ∈ _
      cases line : t.lines.getD i [] with
      | nil => exact absurd line nonempty
      | cons birth rest => exact members birth (line ▸ List.mem_cons_self)
    · intro i inside a above
      rcases lines.ancestor shape inside above with ⟨birth, between, line⟩
      have aInside := Nat.lt_trans (above.lt shape.parent_lt) inside
      have nodup := (lines.lined i inside).2.1
      show (t.lines.getD i []).headD _ ≠ (t.lines.getD a []).headD _
      cases aLine : t.lines.getD a [] with
      | nil => exact absurd aLine (lines.lined a aInside).1
      | cons other rest =>
          rw [line, aLine] at nodup ⊢
          simp only [List.cons_append, List.nodup_cons] at nodup
          intro same
          exact nodup.1 (by simpa using .inr (.inl same))
  calc t.reads ≤ t.machine.builder.total := by omega
    _ ≤ t.machine.builder.list.length * L.dependencies.length :=
        Builder.total_le L linked.known linked.once
    _ ≤ readBound L := Nat.mul_le_mul_right _ trees

end Invariant

/-- When no step of the run fills a dependency below a tree that was filled for
the same dependency under the same view, the loop of `Lockfile::hoist` ends: in
an error, or with an empty queue. -/
theorem hoist_terminates (L : Lockfile) (method : BuilderMethod)
    (resolved : L.Resolved)
    (fresh : ∀ t, Run (Traced.Step L method) (Traced.start L) t →
      t.Fresh L = true) :
    ∃ fuel, (∃ e, hoist L method fuel = some (.error e)) ∨
      ∃ b, Machine.Reachable L method { builder := b } ∧ b.queue = [] ∧
        hoist L method fuel = some (.ok b.clean) := by
  have bounded (t : Traced) (run : Run (Traced.Step L method) (Traced.start L) t) :
      t.reads ≤ readBound L := by
    have guarded : GuardedRun (Traced.Step L method) (fun t _ => t.Fresh L = true)
        (Traced.start L) t := GuardedRun.of_run run fresh
    exact (Run.invariant (Traced.Bounded L) guarded bounded_start
      fun _ _ step inv => bounded_step resolved step.1 step.2 inv).reads_le
  refine ⟨readBound L + 1, ?_⟩
  cases result : hoist L method (readBound L + 1) with
  | none =>
      exfalso
      simp only [hoist] at result
      split at result
      · cases result
      · rename_i b root
        rw [Option.map_eq_none_iff] at result
        rcases Traced.run_traced (processSubtree_run root) (Traced.start L) rfl
          with ⟨t, before, isMachine, _⟩
        rcases Traced.hoistLoop_none result t isMachine with ⟨t', after, reads⟩
        have bound := bounded t' (before.trans after)
        omega
  | some outcome =>
      cases outcome with
      | error e => exact .inl ⟨e, rfl⟩
      | ok r =>
          rcases hoist_run result with ⟨b, run, empty, rfl⟩
          exact .inr ⟨b, run, empty, rfl⟩

theorem hoist_terminates_nested :
    ∃ fuel, (∃ e, hoist nestedVersion .resolvable fuel = some (.error e)) ∨
      ∃ b, Machine.Reachable nestedVersion .resolvable { builder := b } ∧
        b.queue = [] ∧
        hoist nestedVersion .resolvable fuel = some (.ok b.clean) := by
  have along : holdsAlong (Traced.next nestedVersion .resolvable)
      (Traced.Fresh nestedVersion) 10 (Traced.start nestedVersion) = true := by
    decide +kernel
  exact hoist_terminates nestedVersion .resolvable
    (by unfold Lockfile.Resolved; decide)
    fun _ run => Run.of_holdsAlong
      (fun _ _ step => Traced.Step.next_eq step) along run

/-! ### A version cycle -/

/-- The root needs `x@1`, which needs `x@2`, which needs `x@1`. -/
def versionCycle : Lockfile where
  packages :=
    [{ resolution := .root, dependencies := ⟨0, 1⟩, resolutions := ⟨0, 1⟩ },
     { name := [0x78], resolution := .npm { major := 1 }, dependencies := ⟨1, 1⟩
       resolutions := ⟨1, 1⟩ },
     { name := [0x78], resolution := .npm { major := 2 }, dependencies := ⟨2, 1⟩
       resolutions := ⟨2, 1⟩ }]
  dependencies :=
    [{ name := [0x78], nameHash := 0x78, behavior := { prod := true } },
     { name := [0x78], nameHash := 0x78, behavior := { prod := true } },
     { name := [0x78], nameHash := 0x78, behavior := { prod := true } }]
  resolutions := [1, 2, 1]
  resolutions_length := rfl
  lists_in_range := by decide
  resolved_in_range := by decide
  dependencies_lt := by decide
  packages_lt := by decide
  packages_pos := by decide

/-- The dependency of the package that `d` resolves to. -/
def versionCycle.follow (d : DependencyID) : DependencyID := if d = 1 then 2 else 1

/-- Between two turns of the loop: the last tree holds one version of `x`, whose
own dependency is next. -/
structure Spinning (b : Builder) (t : Nat) (d : DependencyID) : Prop where
  shape : b.Shape
  last : t + 1 = b.list.length
  holds : b.placed t = [d]
  known : d < 3
  queue : b.queue = [{ treeId := t, dependencyId := d, hoistRootId := none }]
  resolutions : b.resolutions = versionCycle.resolutions

theorem versionCycle_dep {d : Nat} (known : d < 3) :
    versionCycle.dep d =
      { name := [0x78], nameHash := 0x78, behavior := { prod := true } } := by
  interval_cases d <;> rfl

/-- Each version needs the other one. -/
theorem versionCycle_follow {d : Nat} (known : d < 3) :
    versionCycle.follow d < 3 ∧
      versionCycle.resolution d ≠ invalidPackageId ∧
      versionCycle.resolution d ≠
        versionCycle.resolution (versionCycle.follow d) ∧
      (versionCycle.package (versionCycle.resolution d)).resolution.isFolder =
        false ∧
      (versionCycle.resolutionList (versionCycle.resolution d)).len ≠ 0 ∧
      versionCycle.sortBuf (versionCycle.resolution d) =
        [versionCycle.follow d] := by
  interval_cases d <;> decide +kernel

/-- The dependency of a version conflicts with the version above it, so it stays
in the new tree. -/
theorem versionCycle_conflict {b : Builder} {t d : Nat} (shape : b.Shape)
    (inside : t + 1 < b.list.length) (known : d < 3)
    (resolutions : b.resolutions = versionCycle.resolutions)
    (above : b.placed t = [d]) (empty : b.placed (t + 1) = [])
    (isParent : (b.tree (t + 1)).parent = some t) :
    processDep versionCycle .resolvable (b.resolution d) (t + 1) none
        (versionCycle.follow d) b =
      .ok (applyHoisted versionCycle none (versionCycle.follow d) b
        (.placement { id := t + 1, bundled := false })) := by
  rcases versionCycle_follow known with ⟨followKnown, valid, different, _⟩
  rcases versionCycle_follow followKnown with ⟨_, followValid, _, notFolder, _⟩
  have dep := versionCycle_dep followKnown
  have hereNew : b.lookHere versionCycle 0x78 (t + 1) = none := by
    simp [Builder.lookHere, empty]
  have hereAbove : b.lookHere versionCycle 0x78 t = some d := by
    simp [Builder.lookHere, above, versionCycle_dep known]
  rw [← Builder.resolution_eq resolutions] at valid followValid notFolder
  rw [← Builder.resolution_eq resolutions, ← Builder.resolution_eq resolutions]
    at different
  apply processDep_of_hoisted (by rw [dep]; rfl) (by rw [dep]; rfl) followValid
    notFolder
  rcases hoistDependency_true (L := versionCycle) shape none
    (b.resolution (versionCycle.follow d)) (versionCycle.follow d) inside
    (Nat.le_of_lt inside) with ⟨e, here, _⟩ | ⟨_, _, result⟩ |
      ⟨p, found, r, _, parent, _, climb, climbed, result⟩
  · rw [dep, hereNew] at here
    cases here
  · exact result
  · rw [isParent] at parent
    cases parent
    rw [dep] at climb
    cases climb with
    | top absent => rw [hereAbove] at absent; cases absent
    | up absent => rw [hereAbove] at absent; cases absent
    | found here =>
        rw [hereAbove] at here
        cases here
        rw [climbResult, onSameName_conflict valid followValid different
          (by rw [dep]; rfl)] at climbed
        cases climbed
        simpa using result

/-- A turn of the loop on the version cycle, its item read off the queue, fills
one more tree and queues one more item. -/
theorem spinning_turn {b : Builder} {t d : Nat} (shape : b.Shape)
    (last : t + 1 = b.list.length) (holds : b.placed t = [d]) (known : d < 3)
    (queue : b.queue = []) (resolutions : b.resolutions = versionCycle.resolutions) :
    ∃ b', processSubtree versionCycle .resolvable (some t) d none b = .ok b' ∧
      Spinning b' (t + 1) (versionCycle.follow d) := by
  have isPackage : b.parentPkgId d = versionCycle.resolution d := by
    have notRoot : d ≠ rootDepId := by
      intro same
      rw [same] at known
      exact absurd known (by decide)
    rw [Builder.parentPkgId, if_neg notRoot]
    exact Builder.resolution_eq resolutions d
  rcases versionCycle_follow known with ⟨followKnown, _, _, _, listed, sorted⟩
  rcases versionCycle_follow followKnown with ⟨_, followValid, _, _, more, _⟩
  generalize openedIs : b.openTree (some t) d = opened
  have openedShape : opened.Shape := by
    rw [← openedIs]
    refine shape.openTree ?_ d
    rintro p same
    cases same
    exact Nat.lt_of_succ_le (Nat.le_of_eq last)
  have openedResolutions : opened.resolutions = versionCycle.resolutions := by
    rw [← openedIs]
    exact resolutions
  have inside : t + 1 < opened.list.length := by
    rw [← openedIs, Builder.openTree_length]
    omega
  have empty : opened.placed (t + 1) = [] := by
    rw [← openedIs, Builder.openTree_placed]
    exact b.placed_of_length_le (Nat.le_of_eq last.symm)
  have isParent : (opened.tree (t + 1)).parent = some t := by
    rw [← openedIs, Builder.tree, last, Builder.openTree_entry_new]
  have above : opened.placed t = [d] := by
    rw [← openedIs, Builder.openTree_placed]
    exact holds
  have conflict := versionCycle_conflict openedShape inside known openedResolutions
    above empty isParent
  rw [Builder.resolution_eq openedResolutions] at conflict
  generalize placedIs : applyHoisted versionCycle none (versionCycle.follow d) opened
    (.placement { id := t + 1, bundled := false }) = placed at conflict
  have list : placed.list =
      (opened.place (t + 1) (versionCycle.follow d)).list := by
    rw [← placedIs]
    exact applyHoisted_placement_list opened none _ _
  have placedNew : placed.placed (t + 1) = [versionCycle.follow d] := by
    rw [Builder.placed_congr list, opened.place_placed_self _ inside, empty]
    rfl
  have placedShape : placed.Shape := (openedShape.place _ _).congr list
  have placedQueue : placed.queue = [⟨t + 1, versionCycle.follow d, none⟩] := by
    have openedQueue : opened.queue = [] := openedIs ▸ queue
    have valid : opened.resolution (versionCycle.follow d) =
      versionCycle.resolution (versionCycle.follow d) :=
      Builder.resolution_eq openedResolutions _
    rw [← placedIs, applyHoisted]
    simp only [Builder.enqueue, valid]
    rw [if_pos ⟨followValid, Nat.pos_of_ne_zero more⟩]
    simp [openedQueue]
  refine ⟨placed, ?_, placedShape, ?_, placedNew, followKnown, placedQueue, ?_⟩
  · have kept : placed.closeTree (t + 1) = placed := by
      rw [Builder.closeTree, placedShape.slice_eq, placedNew]
      rfl
    simp only [processSubtree, isPackage, if_neg listed, sorted, processDeps,
      openedIs, ← last, conflict, kept]
  · rw [list, Builder.place_length, ← openedIs, Builder.openTree_length, last]
  · rw [← placedIs]
    simpa [applyHoisted] using openedResolutions

/-- The loop never empties its queue on the version cycle. -/
theorem spinning_none {fuel : Nat} {b : Builder} {t d : Nat}
    (spinning : Spinning b t d) :
    hoistLoop versionCycle .resolvable fuel b = none := by
  induction fuel generalizing b t d with
  | zero => simp [hoistLoop, spinning.queue]
  | succ fuel ih =>
      rcases spinning with ⟨shape, last, holds, known, queue, resolutions⟩
      have id : (b.tree t).id = t :=
        shape.id_eq t (Nat.lt_of_succ_le (Nat.le_of_eq last))
      rcases spinning_turn (b := { b with queue := [] }) (shape.congr rfl) last
        holds known rfl resolutions with ⟨b', turn, again⟩
      simp only [hoistLoop, queue, id, turn]
      exact ih again

/-- Two versions of a package that need each other keep the loop of
`Lockfile::hoist` running. -/
theorem versionCycle_diverges :
    versionCycle.Resolved ∧
      ∀ fuel, hoist versionCycle .resolvable fuel = none := by
  refine ⟨by unfold Lockfile.Resolved; decide, fun fuel => ?_⟩
  have first : ∃ b, processSubtree versionCycle .resolvable none rootDepId none
      (Builder.init versionCycle) = .ok b ∧ Spinning b 0 0 := by
    let b : Builder :=
      { list := [{ tree := ⟨0, rootDepId, none, ⟨0, 1⟩⟩, dependencies := [0] }]
        resolutions := versionCycle.resolutions
        queue := [⟨0, 0, none⟩] }
    refine ⟨b, by decide +kernel, ⟨?_, ?_, ?_⟩, rfl, rfl, by decide, rfl, rfl⟩
    · intro i inside
      obtain rfl : i = 0 := Nat.lt_one_iff.mp inside
      rfl
    · intro i p isParent
      cases i with
      | zero => cases isParent
      | succ i => simp [b, Builder.tree, Builder.entry] at isParent
    · intro i
      cases i with
      | zero => rfl
      | succ i => simp [b, Builder.tree, Builder.placed, Builder.entry]
  rcases first with ⟨b, root, spinning⟩
  simp only [hoist, root, spinning_none spinning, Option.map_none]

end Bunx.Install
