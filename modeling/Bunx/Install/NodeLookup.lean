/-
Module: Bunx.Install.NodeLookup
Purpose: How Node finds a dependency in the finished trees, and what placing a
  dependency does to the lookups that exist already.
Trusted boundary: none
Main exports:
  CleanResult.nodeLookup, CleanResult.moduleTree, LookupSound, Passes,
  Builder.passes, Builder.moduleTree, climb_place, nodeLookup_clean
-/
import Mathlib.Data.List.Find
import Bunx.Install.Occurrences

namespace Bunx.Install

open Semver (Bytes)

/-! ### Lookup in the result -/

namespace CleanResult

variable (r : CleanResult)

def tree (id : Id) : Tree := r.trees.getD id {}

/-- The ids placed in a tree. -/
def placed (id : Id) : List DependencyID := (r.tree id).dependencies.get r.depIds

/-- The tree in which the modules of an occurrence look first: the one filled
for it, or the one it is placed in when it has none. -/
def moduleTree (id : Id) (d : DependencyID) : Id :=
  ((r.trees.map fun t => (t.parent, t.dependencyId)).idxOf? (some id, d)).getD id

/-- The first dependency called `name` in a tree or the trees above it; the
number of trees is enough `fuel`. -/
def nodeLookup (L : Lockfile) (name : Bytes) : Nat → Id → Option DependencyID
  | fuel, id =>
      match (r.placed id).find? (fun d => (L.dep d).name == name), fuel,
          (r.tree id).parent with
      | some d, _, _ => some d
      | none, fuel + 1, some parent => nodeLookup L name fuel parent
      | none, _, _ => none

end CleanResult

/-- Every dependency of every placed package is found, and is the package the
lockfile resolved it to. -/
def LookupSound (L : Lockfile) (r : CleanResult) : Prop :=
  ∀ id, ∀ d ∈ r.placed id, ∀ e ∈ (L.resolutionList (L.resolution d)).range,
    ∃ f, r.nodeLookup L (L.dep e).name r.trees.length (r.moduleTree id d) =
      some f ∧ L.resolution f = L.resolution e

/-! ### Lookups in the builder -/

section Builder

variable (L : Lockfile)

/-- `Passes L b target start through`: the climb from `start` reaches the tree
`through` and has met the name neither on the way nor there. -/
inductive Passes (b : Builder) (target : UInt64) : Id → Id → Prop where
  | here {id : Id} (absent : b.lookHere L target id = none) :
      Passes b target id id
  | up {id parent through : Id} (absent : b.lookHere L target id = none)
      (isParent : (b.tree id).parent = some parent)
      (rest : Passes b target parent through) : Passes b target id through

namespace Builder

/-- `Passes`, computed. -/
def passes (b : Builder) (target : UInt64) (through : Id) : Nat → Id → Bool
  | fuel, id => (b.lookHere L target id).isNone &&
      (id == through ||
        match fuel, (b.tree id).parent with
        | fuel + 1, some parent => passes b target through fuel parent
        | _, _ => false)

/-- Where the modules of an occurrence look first. -/
def moduleTree (b : Builder) (id : Id) (d : DependencyID) : Id :=
  (b.filled.idxOf? (some id, d)).getD id

variable {L} {b b' : Builder}

theorem passes_of_Passes (shape : b.Shape) {target : UInt64} {id through : Nat}
    (through? : Passes L b target id through) {fuel : Nat} (bound : id ≤ fuel) :
    b.passes L target through fuel id = true := by
  induction through? generalizing fuel with
  | here absent =>
      unfold passes
      simp [absent]
  | @up id parent through absent isParent rest ih =>
      have earlier := shape.parent_lt id parent isParent
      obtain ⟨fuel, rfl⟩ : ∃ n, fuel = n + 1 := ⟨fuel - 1, by omega⟩
      unfold passes
      simp [absent, isParent,
        ih (Nat.le_of_lt_succ (Nat.lt_of_lt_of_le earlier bound))]

theorem Passes_le (shape : b.Shape) {target : UInt64} {start through : Nat}
    (passes : Passes L b target start through) : through ≤ start := by
  induction passes with
  | here => exact Nat.le_refl _
  | up _ isParent _ ih =>
      exact Nat.le_trans ih
        (Nat.le_of_lt (shape.parent_lt _ _ isParent))

theorem moduleTree_of_filled (distinct : b.filled.Nodup) {id : Id}
    {d : DependencyID} {j : Nat} (inside : j < b.list.length)
    (parent : (b.tree j).parent = some id) (isDep : (b.tree j).dependencyId = d) :
    b.moduleTree id d = j := by
  have bound : j < b.filled.length := by simpa [filled] using inside
  have entry : b.filled[j] = (some id, d) := by
    have found := b.filled_eq inside
    rwa [List.getElem?_eq_getElem bound, Option.some.injEq, parent, isDep] at found
  rw [moduleTree, List.idxOf?_eq_some_iff.mpr ⟨bound, by simp [entry], ?_⟩]
  · rfl
  · intro k before
    rw [← entry]
    simpa using fun same => Nat.ne_of_lt before (distinct.getElem_inj_iff.mp same)

theorem moduleTree_of_not_mem {id : Id} {d : DependencyID}
    (absent : (some id, d) ∉ b.filled) : b.moduleTree id d = id := by
  rw [moduleTree, List.idxOf?_eq_none_iff.mpr absent]
  rfl

/-- An occurrence has a tree of its own or looks first where it is placed. -/
theorem moduleTree_cases (distinct : b.filled.Nodup) (id : Id) (d : DependencyID) :
    (∃ j : Nat, j < b.list.length ∧ (b.tree j).parent = some id ∧
      (b.tree j).dependencyId = d ∧ b.moduleTree id d = j) ∨
    ((some id, d) ∉ b.filled ∧ b.moduleTree id d = id) := by
  by_cases member : (some id, d) ∈ b.filled
  · obtain ⟨j, inside, isParent, isDep⟩ := mem_filled member
    exact .inl ⟨j, inside, isParent, isDep,
      moduleTree_of_filled distinct inside isParent isDep⟩
  · exact .inr ⟨member, moduleTree_of_not_mem member⟩

theorem moduleTree_lt (distinct : b.filled.Nodup) {id : Id} {d : DependencyID}
    (placed : d ∈ b.placed id) : b.moduleTree id d < b.list.length := by
  rcases b.moduleTree_cases distinct id d with ⟨j, inside, _, _, start⟩ | ⟨_, start⟩
  · rw [start]
    exact inside
  · rw [start]
    exact b.lt_of_mem_placed placed

theorem moduleTree_congr (same : b'.filled = b.filled) (id : Id)
    (d : DependencyID) : b'.moduleTree id d = b.moduleTree id d := by
  rw [moduleTree, moduleTree, same]

/-! ### Placing -/

theorem lookHere_place_of_some {target : UInt64} {i : Nat} {f : DependencyID}
    (here : b.lookHere L target i = some f) (id : Id) (d : DependencyID) :
    (b.place id d).lookHere L target i = some f := by
  have inside := b.lt_of_mem_placed (lookHere_some here).1
  rw [lookHere] at here ⊢
  by_cases same : i = id
  · subst same
    rw [b.place_placed_self d inside, List.find?_append, here]
    rfl
  · rw [b.place_placed_of_ne d same, here]

theorem lookHere_place_of_ne {target : UInt64} {id i : Nat} {d : DependencyID}
    (other : i ≠ id ∨ (L.dep d).nameHash ≠ target) :
    (b.place id d).lookHere L target i = b.lookHere L target i := by
  rw [lookHere, lookHere]
  by_cases same : i = id
  · subst same
    by_cases inside : i < b.list.length
    · rw [b.place_placed_self d inside, List.find?_append]
      have different : ((L.dep d).nameHash == target) = false := by
        simpa using other.resolve_left (by simp)
      simp [different]
    · rw [placed_of_length_le _ (by simpa using inside),
        b.placed_of_length_le (by simpa using inside)]
  · rw [b.place_placed_of_ne d same]

theorem lookHere_place_self {id : Nat} {d : DependencyID}
    (inside : id < b.list.length)
    (absent : b.lookHere L (L.dep d).nameHash id = none) :
    (b.place id d).lookHere L (L.dep d).nameHash id = some d := by
  rw [lookHere] at absent ⊢
  rw [b.place_placed_self d inside, List.find?_append, absent]
  simp

end Builder

section Lookups

variable {L} {b b' : Builder}

/-- The hoist root only cuts a climb short. -/
theorem Climb.to_root {hoistRootId : Option Id} {target : UInt64} {start id : Id}
    {dep : DependencyID}
    (climb : Climb L b hoistRootId target start (.entry id dep)) :
    Climb L b none target start (.entry id dep) := by
  generalize same : Found.entry id dep = result at climb
  induction climb with
  | found here =>
      cases same
      exact .found here
  | top => cases same
  | up absent isParent _ _ ih =>
      exact .up absent isParent (by simp) (ih same)

/-- A climb depends on the trees from its start upwards. -/
theorem Climb.congr (shape : b.Shape) {hoistRootId : Option Id} {target : UInt64}
    {start : Nat} {result : Found}
    (same : ∀ i : Nat, i ≤ start → b'.placed i = b.placed i ∧
      (b'.tree i).parent = (b.tree i).parent)
    (climb : Climb L b hoistRootId target start result) :
    Climb L b' hoistRootId target start result := by
  have look {id : Nat} (inside : id ≤ start) :
      b'.lookHere L target id = b.lookHere L target id := by
    rw [Builder.lookHere, Builder.lookHere, (same id inside).1]
  induction climb with
  | found here => exact .found ((look (Nat.le_refl _)).trans here)
  | @top id absent last =>
      exact .top ((look (Nat.le_refl _)).trans absent)
        ((same id (Nat.le_refl _)).2 ▸ last)
  | @up id parent _ absent isParent inner _ ih =>
      have earlier := shape.parent_lt id parent isParent
      have below (i : Nat) (inside : i ≤ parent) : i ≤ id :=
        Nat.le_of_lt (Nat.lt_of_le_of_lt inside earlier)
      exact .up ((look (Nat.le_refl _)).trans absent)
        ((same id (Nat.le_refl _)).2.trans isParent) inner
        (ih (fun i inside => same i (below i inside))
          fun inside => look (below _ inside))

/-- After placing a dependency, a lookup finds what it found before, or it
passed that tree and now finds the new entry there. -/
theorem climb_place {target : UInt64} {start id k : Nat} {d f : DependencyID}
    (inside : id < b.list.length)
    (climb : Climb L b none target start (.entry k f)) :
    Climb L (b.place id d) none target start (.entry k f) ∨
      ((L.dep d).nameHash = target ∧ (b.tree id).parent ≠ none ∧
        Passes L b target start id ∧
        Climb L (b.place id d) none target start (.entry id d)) := by
  generalize same : Found.entry k f = result at climb
  induction climb with
  | found here =>
      cases same
      exact .inl (.found (Builder.lookHere_place_of_some here id d))
  | top => cases same
  | @up i parent _ absent isParent inner rest ih =>
      have isParent' : ((b.place id d).tree i).parent = some parent :=
        (b.place_tree id i d).2.1.trans isParent
      by_cases new : i = id ∧ (L.dep d).nameHash = target
      · rcases new with ⟨rfl, rfl⟩
        exact .inr ⟨rfl, by simp [isParent], .here absent,
          .found (Builder.lookHere_place_self inside absent)⟩
      · have absent' : (b.place id d).lookHere L target i = none := by
          rw [Builder.lookHere_place_of_ne (not_and_or.mp new)]
          exact absent
        rcases ih same with old | ⟨sameName, below, passes, moved⟩
        · exact .inl (.up absent' isParent' inner old)
        · exact .inr ⟨sameName, below, .up absent isParent passes,
            .up absent' isParent' inner moved⟩

/-- A dependency placed at the top of a climb is found from its start. -/
theorem climb_place_top (shape : b.Shape) {hoistRootId : Option Id}
    {start id : Nat} {d : DependencyID} (inside : id < b.list.length)
    (climb : Climb L b hoistRootId (L.dep d).nameHash start (.top id)) :
    Climb L (b.place id d) none (L.dep d).nameHash start (.entry id d) := by
  generalize same : Found.top id = result at climb
  induction climb with
  | found => cases same
  | top absent =>
      cases same
      exact .found (Builder.lookHere_place_self inside absent)
  | @up i parent _ absent isParent _ rest ih =>
      have above : id ≤ parent := (same ▸ rest).top_le shape
      have earlier := shape.parent_lt i parent isParent
      have other : i ≠ id := Nat.ne_of_gt (Nat.lt_of_le_of_lt above earlier)
      refine .up ?_ ((b.place_tree id i d).2.1.trans isParent) (by simp)
        (ih same)
      rw [Builder.lookHere_place_of_ne (.inl other)]
      exact absent

end Lookups

end Builder

/-! ### The finished trees -/

section Clean

variable {L : Lockfile} {b : Builder}

/-- Cleaning a resolved builder keeps every list. -/
theorem clean_rows_resolved
    (entriesResolved : ∀ i, ∀ d ∈ b.placed i, b.resolution d ≠ invalidPackageId) :
    b.clean.rows = b.list.map fun e =>
      (e.tree.parent, e.tree.dependencyId, e.dependencies) := by
  rw [b.clean_rows]
  apply List.map_congr_left
  intro e member
  rcases List.getElem_of_mem member with ⟨i, inside, rfl⟩
  have placed : b.placed i = (b.list[i]).dependencies := by
    simp [Builder.placed, Builder.entry, inside]
  rw [List.filter_eq_self.mpr fun d isPlaced => by
    simpa using entriesResolved i d (placed ▸ isPlaced)]

theorem clean_length : b.clean.trees.length = b.list.length := by
  have rows := congrArg List.length b.clean_rows
  simpa [CleanResult.rows] using rows

/-- The finished trees are the builder's. -/
theorem clean_tree
    (entriesResolved : ∀ i, ∀ d ∈ b.placed i, b.resolution d ≠ invalidPackageId)
    (i : Nat) : b.clean.placed i = b.placed i ∧
      (b.clean.tree i).parent = (b.tree i).parent := by
  have rows := clean_rows_resolved entriesResolved
  by_cases inside : i < b.list.length
  · have inside' : i < b.clean.trees.length := clean_length ▸ inside
    have row := congrArg (fun l => l[i]?) rows
    simp only [CleanResult.rows, List.getElem?_map, inside, inside',
      List.getElem?_eq_getElem, Option.map_some, Option.some.injEq,
      Prod.mk.injEq] at row
    simp [CleanResult.placed, CleanResult.tree, Builder.placed, Builder.tree,
      Builder.entry, inside, inside', row.1, row.2.2]
  · have outside' : ¬ i < b.clean.trees.length := clean_length ▸ inside
    simp [CleanResult.placed, CleanResult.tree, Builder.placed, Builder.tree,
      Builder.entry, inside, outside', DependencyIDSlice.get]

theorem clean_moduleTree
    (entriesResolved : ∀ i, ∀ d ∈ b.placed i, b.resolution d ≠ invalidPackageId)
    (id : Id) (d : DependencyID) :
    b.clean.moduleTree id d = b.moduleTree id d := by
  have rows := congrArg (List.map fun row => (row.1, row.2.1))
    (clean_rows_resolved entriesResolved)
  simp only [CleanResult.rows, List.map_map, Function.comp_def] at rows
  rw [CleanResult.moduleTree, Builder.moduleTree, Builder.filled, rows]

/-- Where the name hashes tell names apart, Node finds in the finished trees what
a climb to the root finds in the builder. -/
theorem nodeLookup_clean
    (entriesResolved : ∀ i, ∀ d ∈ b.placed i, b.resolution d ≠ invalidPackageId)
    (known : ∀ i, ∀ d ∈ b.placed i, d < L.dependencies.length)
    (shape : b.Shape) {e : DependencyID}
    (hashes : ∀ d < L.dependencies.length,
      ((L.dep d).nameHash = (L.dep e).nameHash ↔ (L.dep d).name = (L.dep e).name))
    {start : Nat} {k : Id} {f : DependencyID}
    (climb : Climb L b none (L.dep e).nameHash start (.entry k f)) {fuel : Nat}
    (bound : start ≤ fuel) :
    b.clean.nodeLookup L (L.dep e).name fuel start = some f := by
  have look (id : Id) : (b.clean.placed id).find?
      (fun d => (L.dep d).name == (L.dep e).name) =
        b.lookHere L (L.dep e).nameHash id := by
    rw [(clean_tree entriesResolved id).1, Builder.lookHere]
    apply List.find?_congr
    intro d placed
    rw [Bool.eq_iff_iff, beq_iff_eq, beq_iff_eq]
    exact (hashes d (known id d placed)).symm
  generalize same : Found.entry k f = result at climb
  induction climb generalizing fuel with
  | found here =>
      cases same
      unfold CleanResult.nodeLookup
      rw [look, here]
  | top => cases same
  | @up id parent _ absent isParent _ _ ih =>
      have earlier := shape.parent_lt id parent isParent
      obtain ⟨fuel, rfl⟩ : ∃ n, fuel = n + 1 := ⟨fuel - 1, by omega⟩
      unfold CleanResult.nodeLookup
      rw [look, absent, (clean_tree entriesResolved id).2, isParent]
      exact ih
        (Nat.le_of_lt_succ (Nat.lt_of_lt_of_le earlier bound)) same

end Clean

end Bunx.Install
