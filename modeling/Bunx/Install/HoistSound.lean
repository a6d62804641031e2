/-
Module: Bunx.Install.HoistSound
Purpose: When every dependency resolves, in the trees Lockfile::hoist builds, to
  the package the lockfile chose, and how bundled dependencies break this.
Trusted boundary: none
Main exports:
  Lockfile.Plain, Builder.shadows, Machine.Unshadowed, Machine.Served,
  hoist_lookup_sound, bundledShadow_unsound
-/
import Bunx.Install.NodeLookup

namespace Bunx.Install

open Lib
open Semver (Bytes)

/-- Everything is resolved to an npm package, nothing is a peer or dev
dependency, and no package lists a name twice. -/
structure Lockfile.RegistryOnly (L : Lockfile) : Prop where
  resolved : L.Resolved
  npm : ∀ r ∈ L.resolutions, (L.package r).resolution.isNpm = true
  notPeer : ∀ d < L.dependencies.length, (L.dep d).behavior.isPeer = false
  notDev : ∀ d < L.dependencies.length, (L.dep d).behavior.isDev = false
  distinctNames : L.DistinctNames

/-- Moreover every name may become a folder, and the name hashes tell the names
apart. -/
structure Lockfile.Plain (L : Lockfile) : Prop extends L.RegistryOnly where
  installable : ∀ d < L.dependencies.length, nameAllowed (L.dep d).name = true
  hashes : ∀ d < L.dependencies.length, ∀ e < L.dependencies.length,
    ((L.dep d).nameHash = (L.dep e).nameHash ↔ (L.dep d).name = (L.dep e).name)

section Guard

variable (L : Lockfile)

/-- Some package that was handled already looks up the name of `d` through this
tree and further up, and is to find another package there. -/
def Builder.shadows (b : Builder) (id : Id) (d : DependencyID) : Bool :=
  (List.range b.list.length).any fun i => (b.placed i).any fun d' =>
    !b.waiting.contains (some i, d') &&
      (L.resolutionList (L.resolution d')).range.any fun e =>
        (L.dep e).nameHash == (L.dep d).nameHash &&
        L.resolution e != L.resolution d &&
        b.passes L (L.dep d).nameHash id b.list.length (b.moduleTree i d')

/-- The next dependency does not go to the top of a climb below the root where
it would shadow another package. -/
def Machine.Unshadowed (m : Machine) : Bool :=
  match m.frame with
  | none => true
  | some f =>
      match f.rest with
      | [] => true
      | d :: _ => (L.dep d).behavior.isBundled ||
          match m.builder.climb L f.hoistRootId (L.dep d).nameHash
              m.builder.list.length f.nextId with
          | .entry _ _ => true
          | .top id =>
              (m.builder.tree id).parent.isNone || !m.builder.shadows L id d

end Guard

/-! ### One dependency -/

section Turn

variable {L : Lockfile} {b b' : Builder}

theorem Lockfile.Plain.notFolder (plain : L.Plain) {d : Nat}
    (inside : d < L.dependencies.length) :
    (L.package (L.resolution d)).resolution.isFolder = false := by
  have inside' : d < L.resolutions.length := L.resolutions_length ▸ inside
  have found : L.resolution d = L.resolutions[d] := by
    simp [Lockfile.resolution, inside']
  have npm := plain.npm _ (List.getElem_mem inside')
  rw [← found] at npm
  cases package : (L.package (L.resolution d)).resolution <;>
    simp_all [Resolution.isNpm, Resolution.isFolder]

/-- A turn of the `'dep` loop over a plain lockfile: the package is shared with
the first entry of its name, or placed in the new tree or at the top of the
climb. -/
theorem processDep_plain (plain : L.Plain) (shape : b.Shape)
    (resolutions : b.resolutions = L.resolutions)
    (known : ∀ i, ∀ d ∈ b.placed i, d < L.dependencies.length)
    {parentPkgId : PackageID} {nextId : Nat} (inside : nextId < b.list.length)
    {hoistRootId : Option Id} {d : Nat} (isDep : d < L.dependencies.length)
    (absent : b.lookHere L (L.dep d).nameHash nextId = none)
    (processed :
      processDep L .resolvable parentPkgId nextId hoistRootId d b = .ok b') :
    (b' = b ∧ ∃ k f, Climb L b hoistRootId (L.dep d).nameHash nextId
        (.entry k f) ∧ L.resolution f = L.resolution d) ∨
    ∃ dest : Placement,
      b' = applyHoisted L hoistRootId d b (.placement dest) ∧
      (dest.id = nextId ∨ ((L.dep d).behavior.isBundled = false ∧
        Climb L b hoistRootId (L.dep d).nameHash nextId (.top dest.id))) := by
  have resolution (e : DependencyID) := Builder.resolution_eq resolutions e
  have valid : b.resolution d ≠ invalidPackageId :=
    resolution d ▸ plain.resolved.ne isDep
  have allowed := plain.installable d isDep
  have notFolder : (L.package (b.resolution d)).resolution.isFolder = false :=
    resolution d ▸ plain.notFolder isDep
  cases bundled : (L.dep d).behavior.isBundled with
  | true =>
      simp [processDep, filteredOut, allowed, destination, bundled] at processed
      exact .inr ⟨_, processed.symm, .inl rfl⟩
  | false =>
      rcases hoistDependency_true (L := L) shape hoistRootId (b.resolution d) d
        inside (Nat.le_of_lt inside) with ⟨e, here, _⟩ | ⟨_, _, result⟩ |
          ⟨p, found, r, _, isParent, inner, climb, climbed, result⟩
      · rw [absent] at here
        cases here
      · rw [processDep_of_hoisted allowed bundled valid notFolder result] at processed
        cases processed
        exact .inr ⟨_, rfl, .inl rfl⟩
      · rw [processDep_of_hoisted allowed bundled valid notFolder result] at processed
        cases processed
        cases found with
        | top id =>
            cases climbed
            exact .inr ⟨{ id := id, bundled := false }, rfl,
              .inr ⟨rfl, .up absent isParent inner climb⟩⟩
        | entry k f =>
            have fKnown := known k f (Builder.lookHere_some climb.entry_spec).1
            by_cases same : b.resolution f = b.resolution d
            · rw [climbResult, onSameName_shared valid same] at climbed
              cases climbed
              refine .inl ⟨rfl, k, f, .up absent isParent inner climb, ?_⟩
              rw [← resolution f, ← resolution d, same]
            · rw [climbResult, onSameName_conflict
                (resolution f ▸ plain.resolved.ne fKnown) valid same
                (plain.notPeer d isDep)] at climbed
              cases climbed
              exact .inr ⟨_, rfl, .inl rfl⟩

end Turn

/-! ### The invariant -/

section Invariant

variable {L : Lockfile} {b b' : Builder}

/-- A lookup from a tree finds the package a dependency resolved to. -/
def Builder.Serves (L : Lockfile) (b : Builder) (start : Id) (e : DependencyID) :
    Prop :=
  ∃ k f, Climb L b none (L.dep e).nameHash start (.entry k f) ∧
    L.resolution f = L.resolution e

/-- A lookup survives a placement that does not put another package in front of
what it finds. -/
theorem Builder.Serves.place {start : Id} {e d : DependencyID} {id : Nat}
    (serves : b.Serves L start e) (inside : id < b.list.length)
    (unshadowed : (L.dep d).nameHash = (L.dep e).nameHash →
      (b.tree id).parent ≠ none → Passes L b (L.dep e).nameHash start id →
      L.resolution d = L.resolution e) :
    (b.place id d).Serves L start e := by
  rcases serves with ⟨k, f, climb, same⟩
  rcases climb_place inside climb with old | ⟨sameName, below, passes, moved⟩
  · exact ⟨k, f, old, same⟩
  · exact ⟨id, d, moved, unshadowed sameName below passes⟩

theorem Builder.Serves.congr (shape : b.Shape) {start : Nat} {e : DependencyID}
    (serves : b.Serves L start e)
    (same : ∀ i : Nat, i ≤ start → b'.placed i = b.placed i ∧
      (b'.tree i).parent = (b.tree i).parent) : b'.Serves L start e := by
  rcases serves with ⟨k, f, climb, resolved⟩
  exact ⟨k, f, climb.congr shape same, resolved⟩

theorem Builder.Serves.congr_list (shape : b.Shape) {start : Nat}
    {e : DependencyID} (serves : b.Serves L start e) (same : b'.list = b.list) :
    b'.Serves L start e :=
  serves.congr shape fun i _ =>
    ⟨placed_congr same i, by rw [tree_congr same]⟩

/-- Does the tree in progress belong to this occurrence? -/
def Frame.isFor (f : Frame) (b : Builder) (id : Id) (d : DependencyID) : Prop :=
  (b.tree f.nextId).parent = some id ∧ (b.tree f.nextId).dependencyId = d

/-- The subtree in progress serves what it has handled, and what it has placed
in its own tree is still to be filled. -/
structure FrameServed (L : Lockfile) (b : Builder) (f : Frame) : Prop where
  package : ∀ id d, f.isFor b id d → f.parentPkgId = L.resolution d
  handled : ∃ done, L.sortBuf f.parentPkgId = done ++ f.rest ∧
    ∀ e ∈ done, b.Serves L f.nextId e
  fresh : ∀ d ∈ b.placed f.nextId, (some f.nextId, d) ∈ b.waiting ∨
    (L.resolutionList (L.resolution d)).len = 0

/-- Every occurrence that is neither queued nor in progress finds all its
dependencies. -/
structure Machine.Served (L : Lockfile) (m : Machine) : Prop where
  finished : ∀ id, ∀ d ∈ m.builder.placed id, (some id, d) ∉ m.builder.waiting →
    (∀ f, m.frame = some f → ¬ f.isFor m.builder id d) →
    ∀ e ∈ (L.resolutionList (L.resolution d)).range,
      m.builder.Serves L (m.builder.moduleTree id d) e
  frame : ∀ f, m.frame = some f → FrameServed L m.builder f

theorem no_dependencies {p : PackageID} {e : DependencyID}
    (empty : (L.resolutionList p).len = 0) :
    e ∉ (L.resolutionList p).range := by
  simp [DependencyIDSlice.range, empty]

/-- Beginning a subtree leaves every other lookup alone. -/
theorem served_enter {selfId : Option Id} {dependencyId : DependencyID}
    {hoistRootId : Option Id} (linked : Machine.Linked L { builder := b })
    (absent : (selfId, dependencyId) ∉ b.filled ++ b.waiting)
    (package : ∀ id, selfId = some id →
      b.parentPkgId dependencyId = L.resolution dependencyId)
    (others : ∀ id, ∀ d ∈ b.placed id, (some id, d) ∉ b.waiting →
      (some id, d) ≠ (selfId, dependencyId) →
      ∀ e ∈ (L.resolutionList (L.resolution d)).range,
        b.Serves L (b.moduleTree id d) e) :
    Machine.Served L (Machine.enter L selfId dependencyId hoistRootId b) := by
  by_cases empty : (L.resolutionList (b.parentPkgId dependencyId)).len = 0
  · rw [Machine.enter, if_pos empty]
    refine ⟨?_, fun f isFrame => by cases isFrame⟩
    intro id d placed notWaiting _ e listed
    by_cases own : (some id, d) = (selfId, dependencyId)
    · simp only [Prod.mk.injEq] at own
      rcases own with ⟨isSelf, rfl⟩
      rw [package id isSelf.symm] at empty
      exact absurd listed (no_dependencies empty)
    · exact others id d placed notWaiting own e listed
  · rw [Machine.enter, if_neg empty]
    have new : (b.openTree selfId dependencyId).tree b.list.length =
        { id := b.list.length, dependencyId := dependencyId, parent := selfId } := by
      rw [Builder.tree, Builder.openTree_entry_new]
    have distinct : (b.openTree selfId dependencyId).filled.Nodup := by
      rw [Builder.filled_openTree, List.nodup_append]
      refine ⟨linked.distinct.of_append_left, by simp, ?_⟩
      intro pair member pair' isNew equal
      rw [List.mem_singleton] at isNew
      rw [equal, isNew] at member
      exact absent (List.mem_append_left _ member)
    refine ⟨?_, ?_⟩
    · intro id d placed notWaiting notFrame e listed
      simp only [Builder.openTree_placed] at placed
      have other : (some id, d) ≠ (selfId, dependencyId) := by
        intro same
        simp only [Prod.mk.injEq] at same
        refine notFrame _ rfl ?_
        simp only [Frame.isFor, new]
        exact ⟨same.1.symm, same.2.symm⟩
      have serves := others id d placed notWaiting other e listed
      have inside :=
        Builder.moduleTree_lt linked.distinct.of_append_left placed
      have start : (b.openTree selfId dependencyId).moduleTree id d =
          b.moduleTree id d := by
        rcases b.moduleTree_cases linked.distinct.of_append_left id d with
          ⟨j, jInside, isParent, isDep, start⟩ | ⟨notFilled, start⟩
        · have old : (b.openTree selfId dependencyId).tree j = b.tree j := by
            rw [Builder.tree, b.openTree_entry_of_ne _ _ (Nat.ne_of_lt jInside)]
            rfl
          rw [start]
          refine Builder.moduleTree_of_filled distinct ?_ (old ▸ isParent)
            (old ▸ isDep)
          rw [Builder.openTree_length]
          omega
        · rw [start]
          refine Builder.moduleTree_of_not_mem ?_
          rw [Builder.filled_openTree, List.mem_append, List.mem_singleton]
          exact not_or.mpr ⟨notFilled, other⟩
      rw [start]
      refine serves.congr linked.shape fun i below => ?_
      have old : i ≠ b.list.length :=
        Nat.ne_of_lt (Nat.lt_of_le_of_lt below inside)
      rw [Builder.openTree_placed, Builder.tree, b.openTree_entry_of_ne _ _ old]
      exact ⟨rfl, rfl⟩
    · intro f isFrame
      cases isFrame
      refine ⟨?_, ⟨[], rfl, by simp⟩, ?_⟩
      · intro id d isFor
        simp only [Frame.isFor, new] at isFor
        rcases isFor with ⟨isSelf, rfl⟩
        exact package id isSelf
      · intro d placed
        rw [Builder.openTree_placed,
          b.placed_of_length_le (i := b.list.length) (Nat.le_refl _)] at placed
        cases placed

/-- A turn that shares a package serves that dependency. -/
theorem served_shared {f : Frame} {d : DependencyID} {rest : List DependencyID}
    (inv : Machine.Served L { builder := b, frame := some f })
    (front : f.rest = d :: rest) (serves : b.Serves L f.nextId d) :
    Machine.Served L { builder := b, frame := some { f with rest := rest } } := by
  rcases inv.frame f rfl with ⟨package, ⟨done, split, handled⟩, fresh⟩
  refine ⟨?_, ?_⟩
  · intro id e placed notWaiting notFrame
    refine inv.finished id e placed notWaiting fun g isFrame => ?_
    cases isFrame
    exact notFrame { f with rest := rest } rfl
  · intro g isFrame
    cases isFrame
    refine ⟨package, ⟨done ++ [d], by simp [split, front], ?_⟩, fresh⟩
    intro e member
    rcases List.mem_append.mp member with old | new
    · exact handled e old
    · rw [List.mem_singleton.mp new]
      exact serves

/-- A finished occurrence that looks a name up through the tree in progress has
no dependencies. -/
theorem no_lookup_through_frame {f : Frame}
    (linked : Machine.Linked L { builder := b, frame := some f })
    (frame : FrameServed L b f) {id : Id} {d : DependencyID}
    (placed : d ∈ b.placed id) (notWaiting : (some id, d) ∉ b.waiting)
    (notFrame : ¬ f.isFor b id d) {target : UInt64}
    (passes : Passes L b target (b.moduleTree id d) f.nextId) :
    (L.resolutionList (L.resolution d)).len = 0 := by
  have last : f.nextId + 1 = b.list.length := (linked.frame f rfl).last
  have above := Builder.Passes_le linked.shape passes
  rcases b.moduleTree_cases linked.distinct.of_append_left id d with
    ⟨j, inside, isParent, isDep, start⟩ | ⟨_, start⟩
  · have isLast : j = f.nextId := by
      rw [start] at above
      exact Nat.le_antisymm (Nat.le_of_lt_succ (Nat.lt_of_lt_of_eq inside last.symm))
        above
    exact absurd ⟨isLast ▸ isParent, isLast ▸ isDep⟩ notFrame
  · have isLast : id = f.nextId := by
      rw [start] at above
      exact Nat.le_antisymm (Nat.le_of_lt_succ
        (Nat.lt_of_lt_of_eq (b.lt_of_mem_placed placed) last.symm)) above
    rcases frame.fresh d (isLast ▸ placed) with waits | empty
    · exact absurd (isLast ▸ waits) notWaiting
    · exact empty

/-- What the guard says when the dependency goes to the top of a climb. -/
theorem Machine.Unshadowed.same {f : Frame} {d : DependencyID}
    {rest : List DependencyID} {top : Id}
    (unshadowed :
      Machine.Unshadowed L { builder := b, frame := some f } = true)
    (shape : b.Shape) (inside : f.nextId < b.list.length)
    (front : f.rest = d :: rest)
    (notBundled : (L.dep d).behavior.isBundled = false)
    (climb : Climb L b f.hoistRootId (L.dep d).nameHash f.nextId (.top top))
    (below : (b.tree top).parent ≠ none) {id : Id} {d' : DependencyID}
    (placed : d' ∈ b.placed id) (notWaiting : (some id, d') ∉ b.waiting)
    {e : DependencyID} (listed : e ∈ (L.resolutionList (L.resolution d')).range)
    (sameName : (L.dep d).nameHash = (L.dep e).nameHash)
    (start : b.moduleTree id d' < b.list.length)
    (passes : Passes L b (L.dep e).nameHash (b.moduleTree id d') top) :
    L.resolution d = L.resolution e := by
  have computed := climb.functional (b.climb_spec shape f.hoistRootId
    (L.dep d).nameHash (Nat.le_of_lt inside))
  have hasParent : (b.tree top).parent.isNone = false := by
    cases parent : (b.tree top).parent with
    | none => exact absurd parent below
    | some p => rfl
  simp only [Machine.Unshadowed, front, notBundled, ← computed, hasParent,
    Bool.false_or, Bool.not_eq_true'] at unshadowed
  by_contra different
  rw [← Bool.not_eq_true] at unshadowed
  refine unshadowed (List.any_eq_true.mpr ⟨id,
    List.mem_range.mpr (b.lt_of_mem_placed placed),
    List.any_eq_true.mpr ⟨d', placed, ?_⟩⟩)
  rw [Bool.and_eq_true]
  refine ⟨by simpa using notWaiting, List.any_eq_true.mpr ⟨e, listed, ?_⟩⟩
  have through := Builder.passes_of_Passes shape passes (Nat.le_of_lt start)
  simp [sameName, through, Ne.symm different]

/-- A placement that shadows nothing keeps every lookup, and serves the
dependency it places. -/
theorem served_placed (plain : L.Plain) {f : Frame} {d : DependencyID}
    {rest : List DependencyID} {dest : Placement}
    (linked : Machine.Linked L { builder := b, frame := some f })
    (inv : Machine.Served L { builder := b, frame := some f })
    (unshadowed :
      Machine.Unshadowed L { builder := b, frame := some f } = true)
    (front : f.rest = d :: rest)
    (absent : b.lookHere L (L.dep d).nameHash f.nextId = none)
    (destination : dest.id = f.nextId ∨
      ((L.dep d).behavior.isBundled = false ∧
        Climb L b f.hoistRootId (L.dep d).nameHash f.nextId (.top dest.id)))
    (result : b' = applyHoisted L f.hoistRootId d b (.placement dest)) :
    Machine.Served L { builder := b', frame := some { f with rest := rest } } := by
  have frame := inv.frame f rfl
  rcases frame with ⟨package, ⟨done, split, handled⟩, fresh⟩
  have last : f.nextId + 1 = b.list.length := (linked.frame f rfl).last
  have nextInside : f.nextId < b.list.length :=
    Nat.lt_of_succ_le (Nat.le_of_eq last)
  have inside : dest.id < b.list.length :=
    (linked.dest_absent front (destination.imp_right And.right)).2
  have list : b'.list = (b.place dest.id d).list :=
    result ▸ applyHoisted_placement_list b f.hoistRootId d dest
  have filled : b'.filled = b.filled := by
    rw [← b.filled_place dest.id d, Builder.filled, list]
    rfl
  have placedShape := linked.shape.place dest.id d
  have tree (i : Id) : (b'.tree i).parent = (b.tree i).parent ∧
      (b'.tree i).dependencyId = (b.tree i).dependencyId := by
    rw [Builder.tree_congr list]
    exact (b.place_tree dest.id i d).2
  have waits (pair : Option Id × DependencyID) (member : pair ∈ b.waiting) :
      pair ∈ b'.waiting := by
    rw [result]
    rcases Builder.waiting_enqueue (b.place dest.id d) L (b.resolution d)
      ⟨dest.id, d, if dest.bundled then some dest.id else f.hoistRootId⟩ with
      same | more
    · exact same ▸ member
    · exact more ▸ List.mem_append_left _ member
  have queued : (some dest.id, d) ∈ b'.waiting ∨
      (L.resolutionList (L.resolution d)).len = 0 := by
    have valid : b.resolution d ≠ invalidPackageId := by
      rw [Builder.resolution_eq linked.resolutions]
      refine plain.resolved.ne (L.listed_lt (L.mem_sortBuf.mp (?_ :
        d ∈ L.sortBuf f.parentPkgId)))
      rw [split, front]
      simp
    by_cases empty : (L.resolutionList (L.resolution d)).len = 0
    · exact .inr empty
    · left
      rw [← Builder.resolution_eq linked.resolutions d] at empty
      simp only [result, applyHoisted, Builder.enqueue]
      rw [if_pos ⟨valid, Nat.pos_of_ne_zero empty⟩]
      simp [Builder.waiting]
  refine ⟨?_, ?_⟩
  · intro id d' placed notWaiting notFrame e listed
    rw [Builder.placed_congr list] at placed
    have oldPlaced : d' ∈ b.placed id := by
      by_cases here : id = dest.id
      · subst here
        rw [b.place_placed_self d inside, List.mem_append,
          List.mem_singleton] at placed
        rcases placed with old | rfl
        · exact old
        · rcases queued with isQueued | empty
          · exact absurd isQueued notWaiting
          · exact absurd listed (no_dependencies empty)
      · rwa [b.place_placed_of_ne d here] at placed
    have oldNotWaiting : (some id, d') ∉ b.waiting :=
      fun member => notWaiting (waits _ member)
    have notFor : ¬ f.isFor b id d' := by
      intro isFor
      refine notFrame _ rfl ?_
      rw [Frame.isFor, (tree _).1, (tree _).2]
      exact isFor
    have serves := inv.finished id d' oldPlaced oldNotWaiting
      (fun g isFrame => by cases isFrame; exact notFor) e listed
    rw [Builder.moduleTree_congr filled]
    refine (serves.place inside ?_).congr_list placedShape list
    intro sameName below passes
    rcases destination with isNext | ⟨notBundled, climb⟩
    · rw [isNext] at passes
      exact absurd listed (no_dependencies (no_lookup_through_frame linked
        (inv.frame f rfl) oldPlaced oldNotWaiting notFor passes))
    · have start :=
        Builder.moduleTree_lt linked.distinct.of_append_left oldPlaced
      exact Machine.Unshadowed.same unshadowed linked.shape nextInside front
        notBundled climb below oldPlaced oldNotWaiting listed sameName start passes
  · intro g isFrame
    cases isFrame
    refine ⟨?_, ⟨done ++ [d], by simp [split, front], ?_⟩, ?_⟩
    · intro id d' isFor
      rw [Frame.isFor, (tree _).1, (tree _).2] at isFor
      exact package id d' isFor
    · intro e member
      rcases List.mem_append.mp member with old | new
      · refine ((handled e old).place inside ?_).congr_list placedShape list
        intro sameName
        -- the package lists `d` and `e` under different names
        have distinct := plain.distinctNames.sortBuf f.parentPkgId
        rw [split, front, List.map_append, List.nodup_append] at distinct
        exact absurd sameName.symm (distinct.2.2 _ (List.mem_map_of_mem old) _
          (by simp))
      · rw [List.mem_singleton.mp new]
        have found : (b.place dest.id d).Serves L f.nextId d := by
          rcases destination with isNext | ⟨_, climb⟩
          · rw [isNext]
            exact ⟨_, d, .found (Builder.lookHere_place_self nextInside absent),
              rfl⟩
          · exact ⟨_, d, climb_place_top linked.shape inside climb, rfl⟩
        exact found.congr_list placedShape list
    · intro e placed
      rw [Builder.placed_congr list] at placed
      by_cases here : f.nextId = dest.id
      · rw [here, b.place_placed_self d inside, List.mem_append,
          List.mem_singleton] at placed
        rcases placed with old | rfl
        · exact (fresh e (here ▸ old)).imp_left (waits _)
        · exact here ▸ queued
      · rw [b.place_placed_of_ne d here] at placed
        exact (fresh e placed).imp_left (waits _)

/-- Finishing a subtree keeps every lookup, also when its tree is dropped. -/
theorem served_close {f : Frame} (finished : f.rest = [])
    (linked : Machine.Linked L { builder := b, frame := some f })
    (inv : Machine.Served L { builder := b, frame := some f }) :
    Machine.Served L { builder := b.closeTree f.nextId } := by
  have last : f.nextId + 1 = b.list.length := (linked.frame f rfl).last
  have nextInside : f.nextId < b.list.length :=
    Nat.lt_of_succ_le (Nat.le_of_eq last)
  have placedSame := Builder.closeTree_placed linked.shape last
  have waiting : (b.closeTree f.nextId).waiting = b.waiting := by
    rw [Builder.waiting, Builder.closeTree_queue]
    rfl
  have distinct := linked.distinct.of_append_left
  have distinctAfter := distinct.sublist (b.filled_closeTree f.nextId)
  rcases inv.frame f rfl with ⟨package, ⟨done, split, handled⟩, _⟩
  -- lookups from the trees that stay are the same
  have keep {start : Nat} {e : DependencyID} (serves : b.Serves L start e)
      (stays : start < (b.closeTree f.nextId).list.length) :
      (b.closeTree f.nextId).Serves L start e :=
    serves.congr linked.shape fun i below =>
      ⟨placedSame i, by rw [Builder.closeTree_tree f.nextId
        (Nat.lt_of_le_of_lt below stays)]⟩
  -- the occurrence in progress was served from its own tree
  have served (id : Id) (d : DependencyID) (placed : d ∈ b.placed id)
      (notWaiting : (some id, d) ∉ b.waiting) (e : DependencyID)
      (listed : e ∈ (L.resolutionList (L.resolution d)).range) :
      b.Serves L (b.moduleTree id d) e := by
    by_cases isFor : f.isFor b id d
    · rw [Builder.moduleTree_of_filled distinct nextInside isFor.1 isFor.2]
      refine handled e ?_
      rw [← package id d isFor, ← L.mem_sortBuf, split, finished] at listed
      simpa using listed
    · exact inv.finished id d placed notWaiting
        (fun g isFrame => by cases isFrame; exact isFor) e listed
  refine ⟨?_, fun g isFrame => by cases isFrame⟩
  intro id d placed notWaiting _ e listed
  simp only at placed notWaiting ⊢
  rw [placedSame] at placed
  rw [waiting] at notWaiting
  have serves := served id d placed notWaiting e listed
  by_cases empty : (b.tree f.nextId).dependencies.len = 0
  · have length : (b.closeTree f.nextId).list.length = f.nextId := by
      rw [Builder.closeTree, if_pos empty, List.length_dropLast, ← last]
      rfl
    have nothing : b.placed f.nextId = [] := by
      rw [linked.shape.slice_eq f.nextId] at empty
      exact List.length_eq_zero_iff.mp empty
    have idStays : id < (b.closeTree f.nextId).list.length := by
      have before : id < f.nextId + 1 :=
        Nat.lt_of_lt_of_eq (b.lt_of_mem_placed placed) last.symm
      have other : id ≠ f.nextId := by
        intro same
        rw [same, nothing] at placed
        cases placed
      rw [length]
      exact Nat.lt_of_le_of_ne (Nat.le_of_lt_succ before) other
    rcases b.moduleTree_cases distinct id d with
      ⟨j, inside, isParent, isDep, start⟩ | ⟨notFilled, start⟩
    · by_cases isLast : j = f.nextId
      · -- its own tree is dropped, so the lookup begins one tree further up
        subst isLast
        have noTree : (some id, d) ∉ (b.closeTree f.nextId).filled := by
          intro member
          rcases Builder.mem_filled member with ⟨k, kStays, kParent, kDep⟩
          rw [Builder.closeTree_tree _ kStays] at kParent kDep
          have kInside : k < b.list.length :=
            Nat.lt_of_lt_of_le kStays (b.closeTree_length_le f.nextId)
          have same := (Builder.moduleTree_of_filled distinct kInside kParent
            kDep).symm.trans start
          rw [length, same] at kStays
          exact Nat.lt_irrefl _ kStays
        rw [Builder.moduleTree_of_not_mem noTree]
        rw [start] at serves
        rcases serves with ⟨k, g, climb, resolved⟩
        cases climb with
        | found here =>
            have member := (Builder.lookHere_some here).1
            rw [nothing] at member
            cases member
        | up _ isParent' _ rest =>
            rw [isParent] at isParent'
            cases isParent'
            exact keep ⟨k, g, rest, resolved⟩ idStays
      · have stays : j < (b.closeTree f.nextId).list.length := by
          rw [length]
          exact Nat.lt_of_le_of_ne
            (Nat.le_of_lt_succ (Nat.lt_of_lt_of_eq inside last.symm)) isLast
        rw [Builder.moduleTree_of_filled distinctAfter stays
          (by rw [Builder.closeTree_tree _ stays]; exact isParent)
          (by rw [Builder.closeTree_tree _ stays]; exact isDep), ← start]
        exact keep serves (start ▸ stays)
    · rw [Builder.moduleTree_of_not_mem fun member =>
        notFilled ((b.filled_closeTree f.nextId).subset member), ← start]
      exact keep serves (by rw [start]; exact idStays)
  · have unchanged : b.closeTree f.nextId = b := by
      rw [Builder.closeTree, if_neg empty]
    rw [unchanged]
    exact serves

theorem served_start (L : Lockfile) : Machine.Served L (Machine.start L) := by
  refine served_enter linked_init (List.not_mem_nil) (fun _ isSelf => by cases isSelf)
    ?_
  intro id d placed
  simp [Builder.placed, Builder.entry, Builder.init] at placed

/-- Every step that shadows nothing keeps the invariant. -/
theorem served_step (plain : L.Plain) {m m' : Machine}
    (step : Machine.Step L .resolvable m m') (unshadowed : m.Unshadowed L = true)
    (linked : Machine.Linked L m) (inv : Machine.Served L m) :
    Machine.Served L m' := by
  cases step with
  | read b item queue front =>
      rcases linked_pop linked front with ⟨popped, placed, absent⟩
      rw [linked.shape.id_eq _ (b.lt_of_mem_placed placed)]
      refine served_enter popped absent ?_ ?_
      · intro _ _
        have known := linked.known _ _ placed
        have notRoot : item.dependencyId ≠ rootDepId :=
          Nat.ne_of_lt (Nat.lt_of_lt_of_le known L.dependencies_lt)
        rw [Builder.parentPkgId, if_neg notRoot]
        exact Builder.resolution_eq linked.resolutions _
      · intro id d isPlaced notWaiting other e listed
        have wasNotWaiting : (some id, d) ∉ b.waiting := by
          simp only [Builder.waiting, front, List.map_cons, List.mem_cons,
            not_or]
          exact ⟨other, notWaiting⟩
        exact (inv.finished id d isPlaced wasNotWaiting
          (fun f isFrame => by cases isFrame) e listed).congr_list linked.shape rfl
  | dep b b' f d rest front processed =>
      rcases linked.frame f rfl with ⟨last, done, split, handled⟩
      have listed : d ∈ L.sortBuf f.parentPkgId := by
        rw [split, front]
        simp
      have isDep := L.listed_lt (L.mem_sortBuf.mp listed)
      have absent : b.lookHere L (L.dep d).nameHash f.nextId = none := by
        rw [Builder.lookHere_none]
        intro e placed sameName
        have distinct := plain.distinctNames.sortBuf f.parentPkgId
        rw [split, front, List.map_append, List.nodup_append] at distinct
        exact distinct.2.2 _ (List.mem_map_of_mem (handled e placed)) _
          (by simp) sameName
      rcases processDep_plain plain linked.shape linked.resolutions linked.known
        (Nat.lt_of_succ_le (Nat.le_of_eq last)) isDep absent processed with
        ⟨rfl, k, g, climb, same⟩ | ⟨dest, result, destination⟩
      · exact served_shared inv front ⟨k, g, climb.to_root, same⟩
      · exact served_placed plain linked inv unshadowed front absent destination
          result
  | close b f finished => exact served_close finished linked inv

end Invariant

/-- When no step of the run shadows a lookup, every dependency of every placed
package resolves, in the trees `Lockfile::hoist` returns, to the package the
lockfile chose. -/
theorem hoist_lookup_sound (L : Lockfile) (plain : L.Plain)
    (unshadowed : ∀ m, Machine.Reachable L .resolvable m → m.Unshadowed L = true)
    {fuel : Nat} {r : CleanResult}
    (finished : hoist L .resolvable fuel = some (.ok r)) : LookupSound L r := by
  rcases hoist_run finished with ⟨b, run, empty, rfl⟩
  have linked := linked_reachable plain.resolved run
  have served : Machine.Served L { builder := b } := by
    have guarded : GuardedRun (Machine.Step L .resolvable)
        (fun m _ => m.Unshadowed L = true) (Machine.start L) { builder := b } :=
      GuardedRun.of_run run fun m before => unshadowed m before
    exact GuardedRun.invariant (Machine.Served L) (Machine.Linked L) guarded
      (fun m before => linked_reachable plain.resolved before) (served_start L)
      fun _ _ step guard linked inv => served_step plain step guard linked inv
  have entriesResolved (i : Id) (d : DependencyID) (placed : d ∈ b.placed i) :
      b.resolution d ≠ invalidPackageId :=
    Builder.resolution_eq linked.resolutions d ▸
      plain.resolved.ne (linked.known i d placed)
  intro id d placed e listed
  rw [(clean_tree entriesResolved id).1] at placed
  have notWaiting : (some id, d) ∉ b.waiting := by
    simp [Builder.waiting, empty]
  rcases served.finished id d placed notWaiting
    (fun f isFrame => by cases isFrame) e listed with ⟨k, f, climb, same⟩
  refine ⟨f, ?_, same⟩
  rw [clean_moduleTree entriesResolved, clean_length]
  exact nodeLookup_clean entriesResolved linked.known linked.shape
    (fun d known => plain.hashes d known e (L.listed_lt listed)) climb
    (Nat.le_of_lt (Builder.moduleTree_lt linked.distinct.of_append_left placed))

theorem hoist_lookup_sound_nested :
    LookupSound nestedVersion
      { trees := [⟨0, rootDepId, none, ⟨0, 2⟩⟩, ⟨1, 0, some 0, ⟨2, 1⟩⟩]
        depIds := [0, 1, 2] } := by
  have along : holdsAlong (Machine.next nestedVersion .resolvable)
      (Machine.Unshadowed nestedVersion) 10 (Machine.start nestedVersion) =
        true := by
    decide +kernel
  exact hoist_lookup_sound nestedVersion
    { resolved := by unfold Lockfile.Resolved; decide
      npm := by decide
      notPeer := by decide
      notDev := by decide
      distinctNames := nestedVersion_distinctNames
      installable := by decide
      hashes := by decide }
    (fun _ run => Run.of_holdsAlong (fun _ _ step => step.next_eq) along run)
    (show hoist nestedVersion .resolvable 1 = _ by decide +kernel)

/-! ### Where a dependency is not found -/

/-- `q` needs `x@1`, which the root has, and bundles `b`, which needs `x@2`. -/
def bundledShadow : Lockfile where
  packages :=
    [{ resolution := .root, dependencies := ⟨0, 2⟩, resolutions := ⟨0, 2⟩ },
     { name := [0x71], resolution := .npm {}, dependencies := ⟨2, 2⟩
       resolutions := ⟨2, 2⟩ },
     { name := [0x78], resolution := .npm { major := 1 } },
     { name := [0x62], resolution := .npm {}, dependencies := ⟨4, 1⟩
       resolutions := ⟨4, 1⟩ },
     { name := [0x78], resolution := .npm { major := 2 } }]
  dependencies :=
    [{ name := [0x71], nameHash := 0x71, behavior := { prod := true } },
     { name := [0x78], nameHash := 0x78, behavior := { prod := true } },
     { name := [0x62], nameHash := 0x62
       behavior := { prod := true, bundled := true } },
     { name := [0x78], nameHash := 0x78, behavior := { prod := true } },
     { name := [0x78], nameHash := 0x78, behavior := { prod := true } }]
  resolutions := [1, 2, 3, 2, 4]
  resolutions_length := rfl
  lists_in_range := by decide
  resolved_in_range := by decide
  dependencies_lt := by decide
  packages_lt := by decide
  packages_pos := by decide

/-- The root needs `q`, which needs a package under the name `..`. -/
def unsafeName : Lockfile where
  packages :=
    [{ resolution := .root, dependencies := ⟨0, 1⟩, resolutions := ⟨0, 1⟩ },
     { name := [0x71], resolution := .npm {}, dependencies := ⟨1, 1⟩
       resolutions := ⟨1, 1⟩ },
     { name := [0x78], resolution := .npm {} }]
  dependencies :=
    [{ name := [0x71], nameHash := 0x71, behavior := { prod := true } },
     { name := [0x2e, 0x2e], nameHash := 0x2e, behavior := { prod := true } }]
  resolutions := [1, 2]
  resolutions_length := rfl
  lists_in_range := by decide
  resolved_in_range := by decide
  dependencies_lt := by decide
  packages_lt := by decide
  packages_pos := by decide

theorem bundledShadow_plain : bundledShadow.Plain where
  resolved := by unfold Lockfile.Resolved; decide
  npm := by decide
  notPeer := by decide
  notDev := by decide
  distinctNames p := by
    match p with
    | 0 | 1 | 2 | 3 | 4 => decide
    | p + 5 => simp [bundledShadow, Lockfile.resolutionList, Lockfile.package,
        DependencyIDSlice.range]
  installable := by decide
  hashes := by decide

theorem unsafeName_registryOnly : unsafeName.RegistryOnly where
  resolved := by unfold Lockfile.Resolved; decide
  npm := by decide
  notPeer := by decide
  notDev := by decide
  distinctNames p := by
    match p with
    | 0 | 1 | 2 => decide
    | p + 3 => simp [unsafeName, Lockfile.resolutionList, Lockfile.package,
        DependencyIDSlice.range]

/-- The bundled `b` brings `x@2` into the folder of `q`, in front of the `x@1` that
`q` was to find; and a package called `..` is never placed. -/
theorem bundledShadow_unsound :
    (bundledShadow.Plain ∧ ∃ r,
      hoist bundledShadow .resolvable 3 = some (.ok r) ∧
        ¬ LookupSound bundledShadow r) ∧
    unsafeName.RegistryOnly ∧ ∃ r,
      hoist unsafeName .resolvable 3 = some (.ok r) ∧
        ¬ LookupSound unsafeName r := by
  refine ⟨⟨bundledShadow_plain, ?_⟩, unsafeName_registryOnly, ?_⟩
  · let r : CleanResult :=
      { trees := [⟨0, rootDepId, none, ⟨0, 2⟩⟩, ⟨1, 0, some 0, ⟨2, 2⟩⟩]
        depIds := [0, 1, 2, 4] }
    refine ⟨r, by decide +kernel, fun sound => ?_⟩
    -- `x` of `q` is dependency 3, resolved to package 2; Node finds package 4
    rcases sound 0 0 (by decide) 3 (by decide) with ⟨f, found, same⟩
    have first : r.nodeLookup bundledShadow (bundledShadow.dep 3).name
        r.trees.length (r.moduleTree 0 0) = some 4 := by decide
    rw [first] at found
    cases found
    exact absurd same (by decide)
  · let r : CleanResult :=
      { trees := [⟨0, rootDepId, none, ⟨0, 1⟩⟩], depIds := [0] }
    refine ⟨r, by decide +kernel, fun sound => ?_⟩
    rcases sound 0 0 (by decide) 1 (by decide) with ⟨f, found, same⟩
    have nothing : r.nodeLookup unsafeName (unsafeName.dep 1).name
        r.trees.length (r.moduleTree 0 0) = none := by decide
    rw [nothing] at found
    cases found

end Bunx.Install
