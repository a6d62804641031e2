/-
Module: Bunx.Install.Occurrences
Purpose: In a resolved lockfile every placed dependency is an occurrence of its
  package: it is queued once, and at most one tree is filled for it.
Trusted boundary: none
Main exports:
  Lockfile.Resolved, DepTurn, processDep_turn, Builder.filled, Builder.waiting,
  Machine.Linked, linked_reachable
-/
import Bunx.Install.FolderNames

namespace Bunx.Install

open Lib

/-- `resolutions[id]`. -/
def Lockfile.resolution (L : Lockfile) (id : DependencyID) : PackageID :=
  L.resolutions.getD id invalidPackageId

/-- Every dependency resolved to a package. -/
def Lockfile.Resolved (L : Lockfile) : Prop :=
  ∀ r ∈ L.resolutions, r ≠ invalidPackageId

theorem Lockfile.Resolved.ne {L : Lockfile} (resolved : L.Resolved) {d : Nat}
    (inside : d < L.dependencies.length) :
    L.resolution d ≠ invalidPackageId := by
  have inside' : d < L.resolutions.length := L.resolutions_length ▸ inside
  have found : L.resolution d = L.resolutions[d] := by
    simp [Lockfile.resolution, inside']
  exact found ▸ resolved _ (List.getElem_mem inside')

/-! ### One dependency of a resolved lockfile -/

/-- What a turn of the `'dep` loop does when nothing is left unresolved: it
leaves the trees alone, or appends the dependency to the tree being filled or
to the top of the climb from it. -/
inductive DepTurn (L : Lockfile) (nextId : Id) (hoistRootId : Option Id)
    (d : DependencyID) (b b' : Builder) : Prop where
  | unplaced (list : b'.list = b.list) (queue : b'.queue = b.queue)
      (resolutions : b'.resolutions = b.resolutions)
  | placed (dest : Placement)
      (destination : dest.id = nextId ∨
        Climb L b hoistRootId (L.dep d).nameHash nextId (.top dest.id))
      (result : b' = applyHoisted L hoistRootId d b (.placement dest))

section Turn

variable {L : Lockfile} {b b' : Builder}

/-- Two resolved packages of one name are shared or in conflict. -/
theorem onSameName_resolved {asDefined : Bool} {id : Id} {depId : DependencyID}
    {packageId : PackageID} {inputDepId : DependencyID}
    {result : HoistDependencyResult}
    (entryResolved : b.resolution depId ≠ invalidPackageId)
    (inputResolved : packageId ≠ invalidPackageId)
    (decided :
      onSameName L asDefined b id depId packageId inputDepId = .ok result) :
    result = .hoisted ∨ result = .dependencyLoop := by
  simp only [onSameName, entryResolved, inputResolved, false_and,
    if_false] at decided
  repeat' split at decided
  all_goals cases decided
  all_goals first
    | exact .inl rfl
    | exact .inr rfl

/-- The same package is shared. -/
theorem onSameName_shared {asDefined : Bool} {id : Id} {depId : DependencyID}
    {packageId : PackageID} {inputDepId : DependencyID}
    (inputResolved : packageId ≠ invalidPackageId)
    (same : b.resolution depId = packageId) :
    onSameName L asDefined b id depId packageId inputDepId = .ok .hoisted := by
  simp [onSameName, same, inputResolved]

/-- Above the tree being filled, another package is a conflict, unless a peer
dependency may share it. -/
theorem onSameName_conflict {id : Id} {depId : DependencyID}
    {packageId : PackageID} {inputDepId : DependencyID}
    (entryResolved : b.resolution depId ≠ invalidPackageId)
    (inputResolved : packageId ≠ invalidPackageId)
    (different : b.resolution depId ≠ packageId)
    (notPeer : (L.dep inputDepId).behavior.isPeer = false) :
    onSameName L false b id depId packageId inputDepId =
      .ok .dependencyLoop := by
  simp [onSameName, entryResolved, inputResolved, different, notPeer]

theorem hoistDependency_turn (shape : b.Shape) {nextId : Id}
    (inside : nextId < b.list.length) {hoistRootId : Option Id} {d : DependencyID}
    {result : HoistDependencyResult}
    (entriesResolved : ∀ i, ∀ e ∈ b.placed i, b.resolution e ≠ invalidPackageId)
    (inputResolved : b.resolution d ≠ invalidPackageId)
    (decided : hoistDependency L true b.list.length nextId hoistRootId
      (b.resolution d) d b = .ok result) :
    DepTurn L nextId hoistRootId d b (applyHoisted L hoistRootId d b result) := by
  rcases hoistDependency_true (L := L) shape hoistRootId (b.resolution d) d inside
    (Nat.le_of_lt inside) with ⟨e, here, same⟩ | ⟨_, _, same⟩ |
      ⟨p, found, r, absent, isParent, inner, climb, climbed, same⟩
  · rw [same] at decided
    have member := (Builder.lookHere_some here).1
    rcases onSameName_resolved (entriesResolved _ e member) inputResolved decided
      with rfl | rfl
    · exact .unplaced rfl rfl rfl
    · exact .unplaced rfl rfl rfl
  · rw [same] at decided
    cases decided
    exact .placed _ (.inl rfl) rfl
  · rw [same] at decided
    cases decided
    cases found with
    | entry id e =>
        have member := (Builder.lookHere_some climb.entry_spec).1
        rcases onSameName_resolved (entriesResolved _ e member) inputResolved
          climbed with rfl | rfl
        · exact .unplaced rfl rfl rfl
        · exact .placed _ (.inl rfl) rfl
    | top id =>
        cases climbed
        exact .placed { id := id, bundled := false }
          (.inr (.up absent isParent inner climb)) rfl

/-- One turn of the `'dep` loop for a resolved dependency. -/
theorem processDep_turn {method : BuilderMethod} (shape : b.Shape)
    {parentPkgId : PackageID} {nextId : Id} (inside : nextId < b.list.length)
    {hoistRootId : Option Id} {d : DependencyID}
    (entriesResolved : ∀ i, ∀ e ∈ b.placed i, b.resolution e ≠ invalidPackageId)
    (inputResolved : b.resolution d ≠ invalidPackageId)
    (processed :
      processDep L method parentPkgId nextId hoistRootId d b = .ok b') :
    DepTurn L nextId hoistRootId d b b' := by
  unfold processDep at processed
  split at processed
  · cases processed
    exact .unplaced rfl rfl rfl
  split at processed
  · cases processed
    exact .unplaced rfl rfl rfl
  simp only [destination, inputResolved, if_false] at processed
  by_cases bundled : (L.dep d).behavior.isBundled = true
  · simp only [bundled, if_true] at processed
    cases processed
    exact .placed _ (.inl rfl) rfl
  by_cases folder : (L.package (b.resolution d)).resolution.isFolder = true
  · simp only [bundled, folder, if_true] at processed
    cases processed
    exact .placed _ (.inl rfl) rfl
  simp only [bundled, folder] at processed
  cases decided : hoistDependency L true b.list.length nextId hoistRootId
      (b.resolution d) d b with
  | error e =>
      rw [decided] at processed
      cases processed
  | ok result =>
      rw [decided] at processed
      cases processed
      exact hoistDependency_turn shape inside entriesResolved inputResolved decided

/-- Building every tree, a dependency that may be hoisted goes where
`hoist_dependency` says. -/
theorem processDep_of_hoisted {parentPkgId : PackageID} {nextId : Id}
    {hoistRootId : Option Id} {d : DependencyID} {result : HoistDependencyResult}
    (allowed : nameAllowed (L.dep d).name = true)
    (notBundled : (L.dep d).behavior.isBundled = false)
    (inputResolved : b.resolution d ≠ invalidPackageId)
    (notFolder : (L.package (b.resolution d)).resolution.isFolder = false)
    (decided : hoistDependency L true b.list.length nextId hoistRootId
      (b.resolution d) d b = .ok result) :
    processDep L .resolvable parentPkgId nextId hoistRootId d b =
      .ok (applyHoisted L hoistRootId d b result) := by
  simp [processDep, filteredOut, allowed, destination, notBundled, inputResolved,
    notFolder, decided, Except.map]

end Turn

/-! ### Occurrences -/

/-- The occurrence each tree was filled for: the tree its dependency is placed
in, and that dependency. -/
def Builder.filled (b : Builder) : List (Option Id × DependencyID) :=
  b.list.map fun e => (e.tree.parent, e.tree.dependencyId)

/-- The occurrences in the queue. -/
def Builder.waiting (b : Builder) : List (Option Id × DependencyID) :=
  b.queue.map fun item => (some item.treeId, item.dependencyId)

section Filled

variable (b : Builder)

@[simp] theorem Builder.filled_place (id : Id) (d : DependencyID) :
    (b.place id d).filled = b.filled := by
  apply List.ext_getElem
  · simp [filled, place]
  · intro i before after
    simp only [filled, place, List.getElem_map, List.getElem_modify]
    split <;> rfl

theorem Builder.filled_openTree (parent : Option Id) (d : DependencyID) :
    (b.openTree parent d).filled = b.filled ++ [(parent, d)] := by
  simp [filled, openTree]

theorem Builder.filled_closeTree (nextId : Id) :
    (b.closeTree nextId).filled.Sublist b.filled := by
  unfold closeTree
  split
  · exact (List.dropLast_sublist _).map _
  · exact List.Sublist.refl _

theorem Builder.filled_eq {i : Nat} (inside : i < b.list.length) :
    b.filled[i]? = some ((b.tree i).parent, (b.tree i).dependencyId) := by
  simp [filled, tree, entry, inside]

theorem Builder.mem_filled {b : Builder} {pair : Option Id × DependencyID}
    (member : pair ∈ b.filled) : ∃ i : Nat, i < b.list.length ∧
      (b.tree i).parent = pair.1 ∧ (b.tree i).dependencyId = pair.2 := by
  obtain ⟨i, bound, rfl⟩ := List.getElem_of_mem member
  have inside : i < b.list.length := by simpa [filled] using bound
  have entry := b.filled_eq inside
  rw [List.getElem?_eq_getElem bound, Option.some.injEq] at entry
  exact ⟨i, inside, by rw [entry], by rw [entry]⟩

/-- Different trees are filled for different occurrences. -/
theorem Builder.filled_inj {b : Builder} (distinct : b.filled.Nodup) {i j : Nat}
    (iInside : i < b.list.length) (jInside : j < b.list.length)
    (same : ((b.tree i).parent, (b.tree i).dependencyId) =
      ((b.tree j).parent, (b.tree j).dependencyId)) : i = j := by
  have different := List.nodup_iff_getElem?_ne_getElem?.mp distinct
  by_contra other
  have iEntry := b.filled_eq iInside
  have jEntry := b.filled_eq jInside
  have bound : ∀ k : Nat, k < b.list.length → k < b.filled.length := by
    simp [filled]
  rcases Nat.lt_or_gt_of_ne other with before | after
  · exact different i j before (bound j jInside) (by rw [iEntry, jEntry, same])
  · exact different j i after (bound i iInside) (by rw [iEntry, jEntry, same])

@[simp] theorem Builder.closeTree_resolutions (nextId : Id) :
    (b.closeTree nextId).resolutions = b.resolutions := by
  unfold closeTree
  split <;> rfl

theorem Builder.closeTree_length_le (nextId : Id) :
    (b.closeTree nextId).list.length ≤ b.list.length := by
  unfold closeTree
  split
  · simp
  · exact Nat.le_refl _

/-- Finishing a subtree changes none of the trees it keeps. -/
theorem Builder.closeTree_tree {b : Builder} (nextId : Id) {i : Nat}
    (inside : i < (b.closeTree nextId).list.length) :
    (b.closeTree nextId).tree i = b.tree i := by
  unfold closeTree at inside ⊢
  split
  · rename_i empty
    rw [if_pos empty, List.length_dropLast] at inside
    simp [tree, entry, inside, show i < b.list.length by omega]
  · rfl

/-- The queue after a placement. -/
theorem Builder.waiting_enqueue (L : Lockfile) (pkgId : PackageID)
    (item : FillItem) :
    (b.enqueue L pkgId item).waiting = b.waiting ∨
      (b.enqueue L pkgId item).waiting =
        b.waiting ++ [(some item.treeId, item.dependencyId)] := by
  unfold enqueue
  split
  · exact .inr (by simp [waiting])
  · exact .inl rfl

end Filled

/-- The subtree in progress fills the last tree with dependencies of its
package. -/
structure FrameLinked (L : Lockfile) (b : Builder) (f : Frame) : Prop where
  last : f.nextId + 1 = b.list.length
  handled : ∃ done, L.sortBuf f.parentPkgId = done ++ f.rest ∧
    ∀ d ∈ b.placed f.nextId, d ∈ done

/-- Trees hang below placed dependencies, and no occurrence is filled or queued
twice. -/
structure Machine.Linked (L : Lockfile) (m : Machine) : Prop where
  shape : m.builder.Shape
  resolutions : m.builder.resolutions = L.resolutions
  known : ∀ i, ∀ d ∈ m.builder.placed i, d < L.dependencies.length
  once : ∀ i, (m.builder.placed i).Nodup
  root : (m.builder.tree 0).parent = none
  below : ∀ p d, (some p, d) ∈ m.builder.filled ++ m.builder.waiting →
    d ∈ m.builder.placed p
  single : ∀ i, 0 < i → i < m.builder.list.length →
    (m.builder.tree i).parent ≠ none
  distinct : (m.builder.filled ++ m.builder.waiting).Nodup
  frame : ∀ f, m.frame = some f → FrameLinked L m.builder f

section Invariant

variable {L : Lockfile} {b b' : Builder}

theorem Builder.resolution_eq (same : b.resolutions = L.resolutions)
    (d : DependencyID) : b.resolution d = L.resolution d := by
  rw [resolution, Lockfile.resolution, same]

/-- Placing an id that a tree lacks keeps every list free of repetitions. -/
theorem Builder.once_place {id : Nat} {d : DependencyID}
    (inside : id < b.list.length) (once : ∀ i, (b.placed i).Nodup)
    (absent : d ∉ b.placed id) (i : Nat) : ((b.place id d).placed i).Nodup := by
  by_cases same : i = id
  · subst same
    rw [b.place_placed_self d inside, List.nodup_append]
    refine ⟨once i, by simp, ?_⟩
    intro e member e' new equal
    rw [List.mem_singleton] at new
    rw [equal, new] at member
    exact absent member
  · rw [b.place_placed_of_ne d same]
    exact once i

theorem Builder.placed_subset_place (id i : Nat) (d : DependencyID) {e : DependencyID}
    (member : e ∈ b.placed i) : e ∈ (b.place id d).placed i := by
  by_cases same : i = id
  · subst same
    rw [b.place_placed_self d (b.lt_of_mem_placed member)]
    exact List.mem_append_left _ member
  · rwa [b.place_placed_of_ne d same]

/-- The tree a dependency is placed in lacks it so far. -/
theorem Machine.Linked.dest_absent {f : Frame} {d : DependencyID}
    {rest : List DependencyID} {id : Id}
    (inv : Machine.Linked L { builder := b, frame := some f })
    (front : f.rest = d :: rest)
    (destination : id = f.nextId ∨
      Climb L b f.hoistRootId (L.dep d).nameHash f.nextId (.top id)) :
    d ∉ b.placed id ∧ id < b.list.length := by
  rcases inv.frame f rfl with ⟨last, done, split, handled⟩
  have inside : f.nextId < b.list.length :=
    Nat.lt_of_succ_le (Nat.le_of_eq last)
  rcases destination with rfl | climb
  · refine ⟨fun member => ?_, inside⟩
    have nodup := L.sortBuf_nodup f.parentPkgId
    rw [split, front, List.nodup_append] at nodup
    exact nodup.2.2 d (handled d member) d (by simp) rfl
  · refine ⟨fun member => ?_, Nat.lt_of_le_of_lt (climb.top_le inv.shape) inside⟩
    exact Builder.lookHere_none.mp climb.top_spec.1 d member rfl

/-- A placement keeps the invariant. -/
theorem linked_place {f : Frame} {d : DependencyID} {rest : List DependencyID}
    {dest : Placement}
    (inv : Machine.Linked L { builder := b, frame := some f })
    (front : f.rest = d :: rest)
    (destination : dest.id = f.nextId ∨
      Climb L b f.hoistRootId (L.dep d).nameHash f.nextId (.top dest.id))
    (result : b' = applyHoisted L f.hoistRootId d b (.placement dest)) :
    Machine.Linked L { builder := b', frame := some { f with rest := rest } } := by
  rcases inv.dest_absent front destination with ⟨absent, inside⟩
  have list : b'.list = (b.place dest.id d).list :=
    result ▸ applyHoisted_placement_list b f.hoistRootId d dest
  have filled : b'.filled = b.filled := by
    rw [← b.filled_place dest.id d, Builder.filled, list]
    rfl
  have waiting : b'.waiting = b.waiting ∨
      b'.waiting = b.waiting ++ [(some dest.id, d)] := by
    rw [result]
    exact Builder.waiting_enqueue (b.place dest.id d) L _ _
  rcases inv with ⟨shape, resolutions, known, once, root, below, single, distinct,
    frame⟩
  rcases frame f rfl with ⟨last, done, split, handled⟩
  have listed : d ∈ L.sortBuf f.parentPkgId := by
    rw [split, front]
    simp
  refine ⟨(shape.place dest.id d).congr list, ?_, ?_, ?_, ?_, ?_, ?_, ?_, ?_⟩
  · rw [result]
    simpa [applyHoisted] using resolutions
  · intro i e member
    rw [Builder.placed_congr list] at member
    rcases Builder.mem_place_placed member with old | rfl
    · exact known i e old
    · exact L.listed_lt (L.mem_sortBuf.mp listed)
  · intro i
    rw [Builder.placed_congr list]
    exact Builder.once_place inside once absent i
  · rw [Builder.tree_congr list, (b.place_tree dest.id 0 d).2.1]
    exact root
  · intro p e member
    rw [Builder.placed_congr list]
    rw [filled] at member
    rcases waiting with same | new
    · rw [same] at member
      exact Builder.placed_subset_place _ _ _ (below p e member)
    · rw [new, ← List.append_assoc, List.mem_append] at member
      rcases member with old | added
      · exact Builder.placed_subset_place _ _ _ (below p e old)
      · simp only [List.mem_singleton, Prod.mk.injEq, Option.some.injEq] at added
        rcases added with ⟨rfl, rfl⟩
        rw [b.place_placed_self e inside]
        simp
  · intro i positive before
    rw [Builder.tree_congr list, (b.place_tree dest.id i d).2.1]
    exact single i positive (by simpa [list] using before)
  · rw [filled]
    rcases waiting with same | new
    · rw [same]
      exact distinct
    · rw [new, ← List.append_assoc, List.nodup_append]
      refine ⟨distinct, by simp, ?_⟩
      intro pair member pair' added equal
      rw [List.mem_singleton] at added
      rw [equal, added] at member
      exact absent (below dest.id d member)
  · intro g isFrame
    cases isFrame
    refine ⟨by simpa [list] using last, done ++ [d], by simp [split, front], ?_⟩
    intro e member
    rw [Builder.placed_congr list] at member
    rcases Builder.mem_place_placed member with old | rfl
    · exact List.mem_append_left _ (handled e old)
    · simp

/-- A turn that leaves the trees alone keeps the invariant. -/
theorem linked_unplaced {f : Frame} {d : DependencyID} {rest : List DependencyID}
    (inv : Machine.Linked L { builder := b, frame := some f })
    (front : f.rest = d :: rest) (list : b'.list = b.list)
    (queue : b'.queue = b.queue) (resolutions : b'.resolutions = b.resolutions) :
    Machine.Linked L { builder := b', frame := some { f with rest := rest } } := by
  have filled : b'.filled = b.filled := by rw [Builder.filled, list]; rfl
  have waiting : b'.waiting = b.waiting := by rw [Builder.waiting, queue]; rfl
  rcases inv.frame f rfl with ⟨last, done, split, handled⟩
  refine ⟨inv.shape.congr list, resolutions.trans inv.resolutions, ?_, ?_, ?_, ?_,
    ?_, ?_, ?_⟩
  · intro i e member
    exact inv.known i e (Builder.placed_congr list i ▸ member)
  · intro i
    exact Builder.placed_congr list i ▸ inv.once i
  · exact (Builder.tree_congr list 0).symm ▸ inv.root
  · intro p e member
    rw [filled, waiting] at member
    exact Builder.placed_congr list p ▸ inv.below p e member
  · intro i positive before
    rw [Builder.tree_congr list]
    exact inv.single i positive (by simpa [list] using before)
  · rw [filled, waiting]
    exact inv.distinct
  · intro g isFrame
    cases isFrame
    refine ⟨by simpa [list] using last, done ++ [d], by simp [split, front], ?_⟩
    intro e member
    exact List.mem_append_left _ (handled e (Builder.placed_congr list _ ▸ member))

/-- Every turn of the `'dep` loop keeps the invariant. -/
theorem linked_dep (resolved : L.Resolved) {method : BuilderMethod} {f : Frame}
    {d : DependencyID} {rest : List DependencyID}
    (inv : Machine.Linked L { builder := b, frame := some f })
    (front : f.rest = d :: rest)
    (processed :
      processDep L method f.parentPkgId f.nextId f.hoistRootId d b = .ok b') :
    DepTurn L f.nextId f.hoistRootId d b b' ∧
      Machine.Linked L { builder := b', frame := some { f with rest := rest } } := by
  rcases inv.frame f rfl with ⟨last, done, split, _⟩
  have listed : d ∈ L.sortBuf f.parentPkgId := by
    rw [split, front]
    simp
  have turn := processDep_turn inv.shape (Nat.lt_of_succ_le (Nat.le_of_eq last))
    (fun i e member => Builder.resolution_eq inv.resolutions e ▸
      resolved.ne (inv.known i e member))
    (Builder.resolution_eq inv.resolutions d ▸
      resolved.ne (L.listed_lt (L.mem_sortBuf.mp listed))) processed
  refine ⟨turn, ?_⟩
  cases turn with
  | unplaced list queue resolutions =>
      exact linked_unplaced inv front list queue resolutions
  | placed dest destination result =>
      exact linked_place inv front destination result

/-- Dropping an occurrence from the queue keeps the rest. -/
theorem linked_pop {item : FillItem} {queue : List FillItem}
    (inv : Machine.Linked L { builder := b }) (front : b.queue = item :: queue) :
    Machine.Linked L { builder := { b with queue := queue } } ∧
      item.dependencyId ∈ b.placed item.treeId ∧
      (some item.treeId, item.dependencyId) ∉
        b.filled ++ Builder.waiting { b with queue := queue } := by
  have waiting : b.waiting = (some item.treeId, item.dependencyId) ::
      Builder.waiting { b with queue := queue } := by
    simp [Builder.waiting, front]
  have distinct := inv.distinct
  have below := inv.below
  simp only [waiting] at distinct below
  rw [List.nodup_middle, List.nodup_cons] at distinct
  refine ⟨⟨inv.shape.congr rfl, inv.resolutions, inv.known, inv.once, inv.root, ?_,
    inv.single, distinct.2, ?_⟩, below _ _ (by simp), distinct.1⟩
  · intro p e member
    refine below p e ?_
    rcases List.mem_append.mp member with old | old
    · exact List.mem_append_left _ old
    · exact List.mem_append_right _ (List.mem_cons_of_mem _ old)
  · intro f isFrame
    cases isFrame

/-- A subtree is begun at the root, or below a placed dependency that has no
tree yet. -/
theorem linked_enter {selfId : Option Id} {dependencyId : DependencyID}
    {hoistRootId : Option Id} (inv : Machine.Linked L { builder := b })
    (origin : (selfId = none ∧ b.list = []) ∨
      ∃ p, selfId = some p ∧ dependencyId ∈ b.placed p)
    (absent : (selfId, dependencyId) ∉ b.filled ++ b.waiting) :
    Machine.Linked L (Machine.enter L selfId dependencyId hoistRootId b) := by
  by_cases empty : (L.resolutionList (b.parentPkgId dependencyId)).len = 0
  · rw [Machine.enter, if_pos empty]
    exact inv
  · rw [Machine.enter, if_neg empty]
    have inside (p : Nat) (isSelf : selfId = some p) : p < b.list.length := by
      rcases origin with ⟨root, _⟩ | ⟨q, isSelf', member⟩
      · rw [root] at isSelf
        cases isSelf
      · rw [isSelf'] at isSelf
        cases isSelf
        exact b.lt_of_mem_placed member
    have pairs : (b.filled ++ [(selfId, dependencyId)] ++ b.waiting).Perm
        ((selfId, dependencyId) :: (b.filled ++ b.waiting)) := by
      rw [List.append_assoc]
      exact List.perm_middle
    have waiting : (b.openTree selfId dependencyId).waiting = b.waiting := rfl
    refine ⟨inv.shape.openTree inside dependencyId, inv.resolutions, ?_, ?_, ?_, ?_,
      ?_, ?_, ?_⟩
    · intro i d member
      rw [Builder.openTree_placed] at member
      exact inv.known i d member
    · intro i
      rw [Builder.openTree_placed]
      exact inv.once i
    · by_cases new : b.list.length = 0
      · rcases origin with ⟨root, _⟩ | ⟨p, isSelf, _⟩
        · rw [Builder.tree, ← new, Builder.openTree_entry_new, root]
        · exact absurd (inside p isSelf) (by omega)
      · rw [Builder.tree, b.openTree_entry_of_ne _ _ (Ne.symm new)]
        exact inv.root
    · intro p d member
      rw [Builder.filled_openTree, waiting, pairs.mem_iff] at member
      rw [Builder.openTree_placed]
      rcases List.mem_cons.mp member with new | old
      · cases new
        rcases origin with ⟨root, _⟩ | ⟨q, isSelf, placed⟩
        · cases root
        · cases isSelf
          exact placed
      · exact inv.below p d old
    · intro i positive before
      by_cases new : i = b.list.length
      · subst new
        rw [Builder.tree, Builder.openTree_entry_new]
        rcases origin with ⟨_, noTrees⟩ | ⟨p, isSelf, _⟩
        · rw [noTrees] at positive
          exact absurd positive (Nat.lt_irrefl 0)
        · rw [isSelf]
          simp
      · rw [Builder.tree, b.openTree_entry_of_ne _ _ new]
        refine inv.single i positive ?_
        simp only [Builder.openTree_length] at before
        show i < b.list.length
        omega
    · rw [Builder.filled_openTree, waiting, pairs.nodup_iff, List.nodup_cons]
      exact ⟨absent, inv.distinct⟩
    · intro f isFrame
      cases isFrame
      refine ⟨by simp, [], rfl, ?_⟩
      intro d member
      rw [Builder.openTree_placed,
        b.placed_of_length_le (i := b.list.length) (Nat.le_refl _)] at member
      cases member

/-- Finishing a subtree keeps the invariant. -/
theorem linked_close {f : Frame}
    (inv : Machine.Linked L { builder := b, frame := some f }) :
    Machine.Linked L { builder := b.closeTree f.nextId } := by
  have last : f.nextId + 1 = b.list.length := (inv.frame f rfl).last
  have placed := Builder.closeTree_placed inv.shape last
  have waiting : (b.closeTree f.nextId).waiting = b.waiting := by
    rw [Builder.waiting, Builder.closeTree_queue]
    rfl
  have sublist := (b.filled_closeTree f.nextId).append_right b.waiting
  refine ⟨inv.shape.closeTree last, ?_, ?_, ?_, ?_, ?_, ?_, ?_, ?_⟩
  · rw [Builder.closeTree_resolutions]
    exact inv.resolutions
  · intro i d member
    exact inv.known i d (placed i ▸ member)
  · intro i
    exact (placed i).symm ▸ inv.once i
  · cases isParent : ((b.closeTree f.nextId).tree 0).parent with
    | none => rfl
    | some p =>
        exact absurd ((inv.shape.closeTree last).parent_lt 0 p isParent)
          (Nat.not_lt_zero p)
  · intro p d member
    rw [waiting] at member
    rw [placed]
    exact inv.below p d (sublist.subset member)
  · intro i positive before
    have tree : (b.closeTree f.nextId).tree i = b.tree i :=
      Builder.closeTree_tree f.nextId before
    rw [tree]
    exact inv.single i positive
      (Nat.lt_of_lt_of_le before (Builder.closeTree_length_le b f.nextId))
  · rw [waiting]
    exact inv.distinct.sublist sublist
  · intro g isFrame
    cases isFrame

theorem linked_init : Machine.Linked L { builder := Builder.init L } where
  shape := Builder.Shape.init L
  resolutions := rfl
  known i d member := by
    simp [Builder.placed, Builder.entry, Builder.init] at member
  once i := by simp [Builder.placed, Builder.entry, Builder.init]
  root := by simp [Builder.tree, Builder.entry, Builder.init]
  below p d member := by
    simp [Builder.filled, Builder.waiting, Builder.init] at member
  single i _ before := absurd before (Nat.not_lt_zero i)
  distinct := List.nodup_nil
  frame f isFrame := by cases isFrame

theorem linked_start : Machine.Linked L (Machine.start L) :=
  linked_enter linked_init (.inl ⟨rfl, rfl⟩) (List.not_mem_nil)

/-- Every step keeps the invariant. -/
theorem linked_step (resolved : L.Resolved) {method : BuilderMethod}
    {m m' : Machine} (step : Machine.Step L method m m')
    (inv : Machine.Linked L m) : Machine.Linked L m' := by
  cases step with
  | read b item queue front =>
      rcases linked_pop inv front with ⟨popped, placed, absent⟩
      rw [inv.shape.id_eq _ (b.lt_of_mem_placed placed)]
      exact linked_enter popped (.inr ⟨_, rfl, placed⟩) absent
  | dep b b' f d rest front processed =>
      exact (linked_dep resolved inv front processed).2
  | close b f finished => exact linked_close inv

/-- The invariant of every run over a resolved lockfile. -/
theorem linked_reachable (resolved : L.Resolved) {method : BuilderMethod}
    {m : Machine} (reachable : Machine.Reachable L method m) :
    Machine.Linked L m :=
  Run.invariant (Machine.Linked L) reachable linked_start
    fun _ _ step inv => linked_step resolved step inv

end Invariant

end Bunx.Install
