/-
Module: Bunx.Install.FolderNames
Purpose: No two packages share a folder: every tree, at every step of the
  builder and in its result, lists each dependency name at most once.
Trusted boundary: none
Main exports:
  Lockfile.DistinctNames, Lockfile.HashesNames, DepEffect, processDep_effect,
  Machine.Folders, folder_names_distinct
-/
import Bunx.Install.HoistRun
import Bunx.Install.TreeShape

namespace Bunx.Install

open Lib
open Semver (Bytes)

/-- No package lists two dependencies of the same name; the tree builder tells
names apart by their hash. -/
def Lockfile.DistinctNames (L : Lockfile) : Prop :=
  ∀ p, ((L.resolutionList p).range.map fun d => (L.dep d).nameHash).Nodup

/-- Sorting the dependencies keeps their names apart. -/
theorem Lockfile.DistinctNames.sortBuf {L : Lockfile} (distinct : L.DistinctNames)
    (p : PackageID) : ((L.sortBuf p).map fun d => (L.dep d).nameHash).Nodup :=
  ((List.perm_insertionSort _ _).map _).nodup_iff.mpr (distinct p)

/-- Every stored name hash is the hash of the stored name. -/
def Lockfile.HashesNames (L : Lockfile) (hash : Bytes → UInt64) : Prop :=
  ∀ d, d < L.dependencies.length → (L.dep d).nameHash = hash (L.dep d).name

/-! ### What one dependency can do to the trees -/

/-- The four ways a turn of the `'dep` loop leaves the trees and the queue.
`own` is the arm that does not look at the list first. -/
inductive DepEffect (L : Lockfile) (nextId : Id) (d : DependencyID)
    (b b' : Builder) : Prop where
  | same (list : b'.list = b.list) (queue : b'.queue = b.queue)
  | replace (r : ResolveReplace)
      (here : b.lookHere L (L.dep d).nameHash r.id = some r.depId)
      (list : b'.list = (b.replacePlaced r.id r.depId d).list)
      (queue : ∀ item ∈ b'.queue, item ∈ b.queue ∨ item.treeId = r.id)
  | own (list : b'.list = (b.place nextId d).list)
      (queue : ∀ item ∈ b'.queue, item ∈ b.queue ∨ item.treeId = nextId)
  | hoisted (id : Id) (inside : id < b.list.length)
      (absent : b.lookHere L (L.dep d).nameHash id = none)
      (list : b'.list = (b.place id d).list)
      (queue : ∀ item ∈ b'.queue, item ∈ b.queue ∨ item.treeId = id)

section Effect

variable {L : Lockfile}

/-- Queueing adds at most the given item. -/
theorem Builder.mem_enqueue {b : Builder} {pkgId : PackageID}
    {item other : FillItem} (member : other ∈ (b.enqueue L pkgId item).queue) :
    other ∈ b.queue ∨ other = item := by
  unfold enqueue at member
  split at member
  · simpa using member
  · exact .inl member

theorem onSameName_ok {asDefined : Bool} {b : Builder} {id : Id}
    {depId : DependencyID} {packageId : PackageID} {inputDepId : DependencyID}
    {result : HoistDependencyResult}
    (decided :
      onSameName L asDefined b id depId packageId inputDepId = .ok result) :
    result = .resolveReplace { id := id, depId := depId } ∨
      ∀ h : Option Id, (applyHoisted L h inputDepId b result).list = b.list ∧
        (applyHoisted L h inputDepId b result).queue = b.queue := by
  simp only [onSameName] at decided
  repeat' split at decided
  all_goals cases decided
  all_goals first
    | exact .inl rfl
    | exact .inr fun _ => ⟨rfl, rfl⟩

/-- Replacing an id queues at most the tree it was replaced in. -/
theorem applyHoisted_replace_effect {b : Builder} {nextId : Id}
    {hoistRootId : Option Id} {d : DependencyID} {r : ResolveReplace}
    (here : b.lookHere L (L.dep d).nameHash r.id = some r.depId) :
    DepEffect L nextId d b
      (applyHoisted L hoistRootId d b (.resolveReplace r)) := by
  refine .replace r here ?_ ?_
  · rw [applyHoisted, Builder.enqueue_list]
    rfl
  · intro item member
    rcases Builder.mem_enqueue member with old | new
    · exact .inl old
    · exact .inr (by rw [new])

theorem applyHoisted_placement_list (b : Builder) (hoistRootId : Option Id)
    (d : DependencyID) (dest : Placement) :
    (applyHoisted L hoistRootId d b (.placement dest)).list =
      (b.place dest.id d).list := by
  rw [applyHoisted, Builder.enqueue_list]

theorem applyHoisted_placement_queue {b : Builder} {hoistRootId : Option Id}
    {d : DependencyID} {dest : Placement} {item : FillItem}
    (member :
      item ∈ (applyHoisted L hoistRootId d b (.placement dest)).queue) :
    item ∈ b.queue ∨ item.treeId = dest.id := by
  rcases Builder.mem_enqueue member with old | new
  · exact .inl old
  · exact .inr (by rw [new])

/-- Whatever `hoist_dependency` decides has one of the four effects, and a
placement goes to a tree that lacks the name. -/
theorem hoistDependency_effect {b : Builder} (shape : b.Shape) {nextId : Id}
    (inside : nextId < b.list.length) {hoistRootId : Option Id}
    {packageId : PackageID} {d : DependencyID} {result : HoistDependencyResult}
    (decided :
      hoistDependency L true b.list.length nextId hoistRootId packageId d b =
        .ok result) :
    DepEffect L nextId d b (applyHoisted L hoistRootId d b result) := by
  have placement (id : Id) (lt : id < b.list.length)
      (absent : b.lookHere L (L.dep d).nameHash id = none) :
      DepEffect L nextId d b (applyHoisted L hoistRootId d b
        (.placement { id := id, bundled := false })) :=
    .hoisted id lt absent (applyHoisted_placement_list ..) fun _ member =>
      applyHoisted_placement_queue member
  have decision {asDefined : Bool} {id : Id} {e : DependencyID}
      {r : HoistDependencyResult}
      (here : b.lookHere L (L.dep d).nameHash id = some e)
      (ok : onSameName L asDefined b id e packageId d = .ok r) :
      DepEffect L nextId d b (applyHoisted L hoistRootId d b r) := by
    rcases onSameName_ok ok with replaced | unchanged
    · rw [replaced]
      exact applyHoisted_replace_effect here
    · exact .same (unchanged _).1 (unchanged _).2
  rcases hoistDependency_true (L := L) shape hoistRootId packageId d inside
    (Nat.le_of_lt inside) with ⟨e, here, same⟩ | ⟨absent, _, same⟩ |
      ⟨p, found, r, absent, isParent, _, climb, climbed, same⟩
  · rw [same] at decided
    exact decision here decided
  · rw [same] at decided
    cases decided
    exact placement nextId inside absent
  · rw [same] at decided
    cases decided
    split
    · exact placement nextId inside absent
    · cases found with
      | entry id e => exact decision climb.entry_spec climbed
      | top id =>
          cases climbed
          have before := climb.top_le shape
          have earlier := shape.parent_lt _ _ isParent
          exact placement id
            (Nat.lt_of_le_of_lt before (Nat.lt_trans earlier inside))
            climb.top_spec.1

/-- One turn of the `'dep` loop has one of the four effects. -/
theorem processDep_effect {method : BuilderMethod} {b b' : Builder}
    (shape : b.Shape) {parentPkgId : PackageID} {nextId : Id}
    (inside : nextId < b.list.length) {hoistRootId : Option Id}
    {d : DependencyID}
    (processed :
      processDep L method parentPkgId nextId hoistRootId d b = .ok b') :
    DepEffect L nextId d b b' := by
  have placement (dest : Placement) (isNext : dest.id = nextId) :
      DepEffect L nextId d b
        (applyHoisted L hoistRootId d b (.placement dest)) := by
    subst isNext
    exact .own (applyHoisted_placement_list ..) fun _ member =>
      applyHoisted_placement_queue member
  have climbed {pkgId : PackageID} {r : HoistDependencyResult}
      (decided : (hoistDependency L true b.list.length nextId hoistRootId pkgId
        d b).map some = .ok (some r)) :
      DepEffect L nextId d b (applyHoisted L hoistRootId d b r) := by
    cases result : hoistDependency L true b.list.length nextId hoistRootId pkgId
        d b with
    | error e =>
        rw [result] at decided
        cases decided
    | ok r' =>
        rw [result] at decided
        cases decided
        exact hoistDependency_effect shape inside result
  unfold processDep at processed
  split at processed
  · cases processed
    exact .same rfl rfl
  split at processed
  · cases processed
    exact .same rfl rfl
  split at processed
  · cases processed
  · cases processed
    exact .same rfl rfl
  · rename_i r decided
    cases processed
    simp only [destination] at decided
    split at decided
    · cases decided
      exact placement _ rfl
    split at decided
    · split at decided
      · exact climbed decided
      · cases decided
    split at decided
    · cases decided
      exact placement _ rfl
    · exact climbed decided

end Effect

/-! ### The invariant -/

/-- The name hashes of the ids in a tree. -/
def Builder.hashes (L : Lockfile) (b : Builder) (i : Id) : List UInt64 :=
  (b.placed i).map fun d => (L.dep d).nameHash

/-- The subtree in progress fills the last tree, and holds only dependencies
of its package that were already handled. -/
structure FrameFolders (L : Lockfile) (b : Builder) (f : Frame) : Prop where
  last : f.nextId + 1 = b.list.length
  handled : ∃ done, L.sortBuf f.parentPkgId = done ++ f.rest ∧
    ∀ h ∈ b.hashes L f.nextId, h ∈ done.map fun d => (L.dep d).nameHash

structure Machine.Folders (L : Lockfile) (m : Machine) : Prop where
  shape : m.builder.Shape
  distinct : ∀ i, (m.builder.hashes L i).Nodup
  known : ∀ i, ∀ d ∈ m.builder.placed i, d < L.dependencies.length
  queued : ∀ item ∈ m.builder.queue, m.builder.placed item.treeId ≠ []
  frame : ∀ f, m.frame = some f → FrameFolders L m.builder f

section Invariant

variable {L : Lockfile} {b b' : Builder}

theorem Builder.hashes_congr (same : b'.list = b.list) (i : Id) :
    b'.hashes L i = b.hashes L i := by
  rw [hashes, hashes, placed_congr same]

/-- Replacing an id by one of the same name keeps every hash. -/
theorem Builder.hashes_replacePlaced {id : Id} {old new : DependencyID}
    (sameName : (L.dep old).nameHash = (L.dep new).nameHash) (i : Id) :
    (b.replacePlaced id old new).hashes L i = b.hashes L i := by
  by_cases same : i = id
  · subst same
    rw [hashes, hashes, b.replacePlaced_placed_self, List.map_map]
    apply List.map_congr_left
    intro d _
    by_cases replaced : d = old <;> simp [replaced, sameName]
  · rw [hashes, hashes, b.replacePlaced_placed_of_ne old new same]

theorem Builder.hashes_place_self {id : Nat} (inside : id < b.list.length)
    (d : DependencyID) :
    (b.place id d).hashes L id = b.hashes L id ++ [(L.dep d).nameHash] := by
  simp [hashes, b.place_placed_self d inside]

theorem Builder.hashes_place_of_ne {id i : Nat} (other : i ≠ id)
    (d : DependencyID) : (b.place id d).hashes L i = b.hashes L i := by
  simp [hashes, b.place_placed_of_ne d other]

/-- Placing a name a tree lacks keeps every list free of repetitions. -/
theorem Builder.distinct_place {id : Nat} {d : DependencyID}
    (inside : id < b.list.length) (distinct : ∀ i, (b.hashes L i).Nodup)
    (absent : (L.dep d).nameHash ∉ b.hashes L id) (i : Nat) :
    ((b.place id d).hashes L i).Nodup := by
  by_cases same : i = id
  · subst same
    rw [hashes_place_self inside, List.nodup_append]
    refine ⟨distinct i, by simp, ?_⟩
    intro h member h' new equal
    rw [List.mem_singleton] at new
    rw [equal, new] at member
    exact absent member
  · rw [hashes_place_of_ne same]
    exact distinct i

theorem Builder.place_placed_ne_nil {id i : Nat} {d : DependencyID}
    (nonempty : b.placed i ≠ []) : (b.place id d).placed i ≠ [] := by
  by_cases same : i = id
  · subst same
    have inside : i < b.list.length := by
      by_contra outside
      exact nonempty (b.placed_of_length_le (Nat.le_of_not_lt outside))
    simp [b.place_placed_self d inside]
  · rwa [b.place_placed_of_ne d same]

theorem Builder.mem_place_placed {id i : Nat} {d e : DependencyID}
    (member : e ∈ (b.place id d).placed i) : e ∈ b.placed i ∨ e = d := by
  by_cases same : i = id
  · subst same
    by_cases inside : i < b.list.length
    · simpa [b.place_placed_self d inside] using member
    · rw [placed_of_length_le _ (by simpa using inside)] at member
      cases member
  · rw [b.place_placed_of_ne d same] at member
    exact .inl member

/-- The common part of the two placing arms. -/
theorem folders_place {f : Frame} {d : DependencyID} {rest : List DependencyID}
    {id : Nat} (inv : Machine.Folders L { builder := b, frame := some f })
    (front : f.rest = d :: rest) (inside : id < b.list.length)
    (absent : (L.dep d).nameHash ∉ b.hashes L id)
    (list : b'.list = (b.place id d).list)
    (queue : ∀ item ∈ b'.queue, item ∈ b.queue ∨ item.treeId = id) :
    Machine.Folders L
      { builder := b', frame := some { f with rest := rest } } := by
  rcases inv with ⟨shape, distinct, known, queued, frame⟩
  rcases frame f rfl with ⟨last, done, split, handled⟩
  have listed : d ∈ L.sortBuf f.parentPkgId := by
    rw [split, front]
    simp
  refine ⟨(shape.place id d).congr list, ?_, ?_, ?_, ?_⟩
  · intro i
    rw [Builder.hashes_congr list]
    exact Builder.distinct_place inside distinct absent i
  · intro i e member
    rw [Builder.placed_congr list] at member
    rcases Builder.mem_place_placed member with old | rfl
    · exact known i e old
    · exact L.listed_lt (L.mem_sortBuf.mp listed)
  · intro item member
    show b'.placed item.treeId ≠ []
    rw [Builder.placed_congr list]
    rcases queue item member with old | new
    · exact Builder.place_placed_ne_nil (queued item old)
    · rw [new, b.place_placed_self d inside]
      simp
  · intro g isFrame
    cases isFrame
    refine ⟨by rw [list]; simpa using last, done ++ [d], ?_, ?_⟩
    · rw [split, front]
      simp
    · intro h member
      rw [Builder.hashes_congr list] at member
      by_cases same : f.nextId = id
      · rw [same, Builder.hashes_place_self inside, List.mem_append] at member
        rw [List.map_append, List.mem_append]
        rcases member with old | new
        · exact .inl (handled h (same ▸ old))
        · exact .inr new
      · rw [Builder.hashes_place_of_ne same] at member
        rw [List.map_append, List.mem_append]
        exact .inl (handled h member)

/-- A subtree step that keeps every tree's hashes keeps the invariant. -/
theorem folders_keep {f : Frame} {d : DependencyID} {rest : List DependencyID}
    (inv : Machine.Folders L { builder := b, frame := some f })
    (front : f.rest = d :: rest) (shape' : b'.Shape)
    (length : b'.list.length = b.list.length)
    (hashes : ∀ i, b'.hashes L i = b.hashes L i)
    (known : ∀ i, ∀ e ∈ b'.placed i, e ∈ b.placed i ∨ e = d)
    (queue : ∀ item ∈ b'.queue,
      item ∈ b.queue ∨ b.placed item.treeId ≠ []) :
    Machine.Folders L
      { builder := b', frame := some { f with rest := rest } } := by
  rcases inv.frame f rfl with ⟨last, done, split, handled⟩
  have listed : d ∈ L.sortBuf f.parentPkgId := by
    rw [split, front]
    simp
  refine ⟨shape', ?_, ?_, ?_, ?_⟩
  · intro i
    rw [hashes]
    exact inv.distinct i
  · intro i e member
    rcases known i e member with old | rfl
    · exact inv.known i e old
    · exact L.listed_lt (L.mem_sortBuf.mp listed)
  · intro item member empty
    have same := congrArg List.length (hashes item.treeId)
    have nonempty : b.placed item.treeId ≠ [] := by
      rcases queue item member with old | new
      · exact inv.queued item old
      · exact new
    simp only [Builder.hashes, List.length_map] at same
    rw [empty] at same
    exact nonempty (List.eq_nil_of_length_eq_zero same.symm)
  · intro g isFrame
    cases isFrame
    refine ⟨by rw [length]; exact last, done ++ [d], ?_, ?_⟩
    · rw [split, front]
      simp
    · intro h member
      rw [hashes] at member
      rw [List.map_append, List.mem_append]
      exact .inl (handled h member)

/-- The four effects keep the invariant. -/
theorem folders_dep (hashesDistinct :
      ∀ p, ((L.sortBuf p).map fun d => (L.dep d).nameHash).Nodup)
    {f : Frame} {d : DependencyID} {rest : List DependencyID}
    (inv : Machine.Folders L { builder := b, frame := some f })
    (front : f.rest = d :: rest) (effect : DepEffect L f.nextId d b b') :
    Machine.Folders L
      { builder := b', frame := some { f with rest := rest } } := by
  cases effect with
  | same list queue =>
      refine folders_keep inv front (inv.shape.congr list) (by rw [list])
        (Builder.hashes_congr list) ?_ ?_
      · intro i e member
        rw [Builder.placed_congr list] at member
        exact .inl member
      · intro item member
        exact .inl (queue ▸ member)
  | replace r here list queue =>
      rcases Builder.lookHere_some here with ⟨member, sameName⟩
      refine folders_keep inv front
        ((inv.shape.replacePlaced r.id r.depId d).congr list) (by simp [list])
        ?_ ?_ ?_
      · intro i
        rw [Builder.hashes_congr list]
        exact Builder.hashes_replacePlaced sameName i
      · intro i e present
        rw [Builder.placed_congr list] at present
        by_cases same : i = r.id
        · subst same
          rw [b.replacePlaced_placed_self, List.mem_map] at present
          rcases present with ⟨old, oldMember, rfl⟩
          by_cases isOld : old = r.depId <;> simp [isOld, oldMember]
        · rw [b.replacePlaced_placed_of_ne _ _ same] at present
          exact .inl present
      · intro item present
        rcases queue item present with old | new
        · exact .inl old
        · exact .inr (new ▸ List.ne_nil_of_mem member)
  | own list queue =>
      rcases inv.frame f rfl with ⟨last, done, split, handled⟩
      refine folders_place inv front (Nat.lt_of_succ_le (Nat.le_of_eq last)) ?_
        list queue
      -- the names handled before `d` differ from it: one package lists both
      intro member
      have distinct := hashesDistinct f.parentPkgId
      rw [split, front, List.map_append, List.nodup_append] at distinct
      exact distinct.2.2 _ (handled _ member) _ (by simp) rfl
  | hoisted id inside absent list queue =>
      refine folders_place inv front inside ?_ list queue
      intro member
      rcases List.mem_map.mp member with ⟨e, placed, sameHash⟩
      exact Builder.lookHere_none.mp absent e placed sameHash

/-- Beginning a subtree below an existing tree. -/
theorem folders_enter {selfId : Option Id}
    (below : ∀ p : Nat, selfId = some p → p < b.list.length)
    (inv : Machine.Folders L { builder := b }) (dependencyId : DependencyID)
    (hoistRootId : Option Id) :
    Machine.Folders L (Machine.enter L selfId dependencyId hoistRootId b) := by
  by_cases empty : (L.resolutionList (b.parentPkgId dependencyId)).len = 0
  · rw [Machine.enter, if_pos empty]
    exact inv
  · rw [Machine.enter, if_neg empty]
    refine ⟨inv.shape.openTree below dependencyId, ?_, ?_, ?_, ?_⟩
    · intro i
      simp only [Builder.hashes, Builder.openTree_placed]
      exact inv.distinct i
    · intro i d member
      rw [Builder.openTree_placed] at member
      exact inv.known i d member
    · intro item member
      rw [Builder.openTree_placed]
      exact inv.queued item member
    · intro f isFrame
      cases isFrame
      refine ⟨by simp, [], rfl, ?_⟩
      intro h member
      simp [Builder.hashes, Builder.openTree_placed,
        Builder.placed_of_length_le] at member

/-- Dropping the last tree when it is empty changes no list. -/
theorem Builder.closeTree_placed (shape : b.Shape) {nextId : Nat}
    (last : nextId + 1 = b.list.length) (i : Nat) :
    (b.closeTree nextId).placed i = b.placed i := by
  unfold closeTree
  split
  · rename_i empty
    rw [shape.slice_eq nextId] at empty
    simp only [List.length_eq_zero_iff] at empty
    rcases Nat.lt_trichotomy i nextId with before | rfl | after
    · simp [placed, entry, show i < b.list.length - 1 by omega,
        show i < b.list.length by omega]
    · rw [empty]
      exact placed_of_length_le _ (by simp; omega)
    · rw [b.placed_of_length_le (i := i) (by omega),
        placed_of_length_le _ (by simp only [List.length_dropLast]; omega)]
  · rfl

theorem Builder.Shape.closeTree (shape : b.Shape) {nextId : Nat}
    (last : nextId + 1 = b.list.length) : (b.closeTree nextId).Shape := by
  have placed := Builder.closeTree_placed shape last
  unfold Builder.closeTree at placed ⊢
  split at placed
  · rename_i empty
    have tree (i : Nat) (before : i < nextId) :
        Builder.tree { b with list := b.list.dropLast } i = b.tree i := by
      simp [Builder.tree, Builder.entry, show i < b.list.length - 1 by omega,
        show i < b.list.length by omega]
    have outside (i : Nat) (after : nextId ≤ i) :
        Builder.tree { b with list := b.list.dropLast } i = {} := by
      rw [Builder.tree, Builder.entry_of_length_le _ (by simp; omega)]
    rw [if_pos empty]
    refine ⟨?_, ?_, ?_⟩
    · intro i inside
      simp only [List.length_dropLast] at inside
      rw [tree i (by omega)]
      exact shape.id_eq i (by omega)
    · intro i p isParent
      by_cases before : i < nextId
      · rw [tree i before] at isParent
        exact shape.parent_lt i p isParent
      · rw [outside i (by omega)] at isParent
        cases isParent
    · intro i
      rw [placed i]
      by_cases before : i < nextId
      · rw [tree i before]
        exact shape.slice_eq i
      · rw [outside i (by omega), ← placed i,
          Builder.placed_of_length_le _ (by simp; omega)]
        rfl
  · rename_i full
    rw [if_neg full]
    exact shape

theorem Builder.closeTree_queue (nextId : Id) :
    (b.closeTree nextId).queue = b.queue := by
  unfold closeTree
  split <;> rfl

/-- Every step keeps the invariant. -/
theorem folders_step {method : BuilderMethod} (hashesDistinct :
      ∀ p, ((L.sortBuf p).map fun d => (L.dep d).nameHash).Nodup)
    {m m' : Machine} (step : Machine.Step L method m m')
    (inv : Machine.Folders L m) : Machine.Folders L m' := by
  cases step with
  | read b item queue front =>
      have isItem : item ∈ b.queue := by simp [front]
      have inside : item.treeId < b.list.length := by
        rcases List.exists_mem_of_ne_nil _ (inv.queued item isItem) with
          ⟨d, member⟩
        exact b.lt_of_mem_placed member
      have popped : Machine.Folders L { builder := { b with queue := queue } } :=
        { shape := inv.shape.congr rfl
          distinct := inv.distinct
          known := inv.known
          queued := fun other member =>
            inv.queued other (front ▸ List.mem_cons_of_mem item member)
          frame := fun f isFrame => by cases isFrame }
      refine folders_enter ?_ popped item.dependencyId item.hoistRootId
      intro p isId
      rw [inv.shape.id_eq _ inside] at isId
      cases isId
      exact inside
  | dep b b' f d rest front processed =>
      have inside : f.nextId < b.list.length :=
        Nat.lt_of_succ_le (Nat.le_of_eq (inv.frame f rfl).last)
      exact folders_dep hashesDistinct inv front
        (processDep_effect inv.shape inside processed)
  | close b f finished =>
      have last := (inv.frame f rfl).last
      have placed := Builder.closeTree_placed inv.shape last
      refine ⟨inv.shape.closeTree last, ?_, ?_, ?_, ?_⟩
      · intro i
        simp only [Builder.hashes, placed]
        exact inv.distinct i
      · intro i d member
        rw [placed] at member
        exact inv.known i d member
      · intro item member
        rw [placed]
        rw [Builder.closeTree_queue] at member
        exact inv.queued item member
      · intro g isFrame
        cases isFrame

theorem folders_start : Machine.Folders L (Machine.start L) := by
  refine folders_enter (by simp) ?_ rootDepId none
  exact
    { shape := Builder.Shape.init L
      distinct := fun i => by
        simp [Builder.hashes, Builder.placed, Builder.entry, Builder.init]
      known := fun i d member => by
        simp [Builder.placed, Builder.entry, Builder.init] at member
      queued := fun item member => by cases member
      frame := fun f isFrame => by cases isFrame }

/-- The invariant of every run of the tree builder. -/
theorem folders_reachable {method : BuilderMethod} (hashesDistinct :
      ∀ p, ((L.sortBuf p).map fun d => (L.dep d).nameHash).Nodup)
    {m : Machine} (reachable : Machine.Reachable L method m) :
    Machine.Folders L m :=
  Run.invariant (Machine.Folders L) reachable folders_start
    fun _ _ step inv => folders_step hashesDistinct step inv

end Invariant

/-! ### The cleaned trees -/

/-- What a tree says to its reader: its parent, its package's dependency and the
ids placed in it. -/
def CleanResult.rows (r : CleanResult) :
    List (Option Id × DependencyID × List DependencyID) :=
  r.trees.map fun t => (t.parent, t.dependencyId, t.dependencies.get r.depIds)

/-- Cleaning only drops unresolved ids: each tree's slice is a filter of the list
it was built from. -/
theorem Builder.clean_rows (b : Builder) :
    b.clean.rows = b.list.map fun e =>
      (e.tree.parent, e.tree.dependencyId,
        e.dependencies.filter (b.resolution · != invalidPackageId)) := by
  let kept (e : BuilderEntry) : List DependencyID :=
    e.dependencies.filter (b.resolution · != invalidPackageId)
  let step (r : CleanResult) (e : BuilderEntry) : CleanResult :=
    { trees := r.trees ++ [{ e.tree with dependencies :=
        { off := r.depIds.length, len := (kept e).length } }]
      depIds := r.depIds ++ kept e }
  -- a slice inside the buffer stays the same when the buffer grows
  have grow (s : DependencyIDSlice) (ids more : List DependencyID)
      (inside : s.off + s.len ≤ ids.length) : s.get (ids ++ more) = s.get ids := by
    simp [DependencyIDSlice.get, List.take_append_of_le_length inside]
  have folded (l : List BuilderEntry) : ∀ r : CleanResult,
      (∀ t ∈ r.trees, t.dependencies.off + t.dependencies.len ≤ r.depIds.length) →
      (l.foldl step r).rows = r.rows ++
        l.map fun e => (e.tree.parent, e.tree.dependencyId, kept e) := by
    induction l with
    | nil =>
        intro r _
        simp
    | cons e l ih =>
        intro r slices
        have first : (step r e).rows =
            r.rows ++ [(e.tree.parent, e.tree.dependencyId, kept e)] := by
          simp only [CleanResult.rows, step, List.map_append, List.map_cons,
            List.map_nil]
          congr 1
          · apply List.map_congr_left
            intro t member
            rw [grow _ _ _ (slices t member)]
          · simp [DependencyIDSlice.get, List.take_of_length_le]
        rw [List.foldl_cons, ih (step r e) ?_, first]
        · simp
        · intro t member
          rcases List.mem_append.mp member with old | new
          · have inside := slices t old
            simp only [step, List.length_append]
            omega
          · rw [List.mem_singleton] at new
            subst new
            simp [step]
  exact (folded b.list {} (by simp)).trans (by simp [CleanResult.rows, kept])

/-- No two packages share a folder.  When no package lists two dependencies of
one name, every tree of every reachable builder state lists each name at most
once, and so does every tree `Lockfile::hoist` returns. -/
theorem folder_names_distinct (L : Lockfile) (method : BuilderMethod)
    (hash : Bytes → UInt64) (hashesNames : L.HashesNames hash)
    (distinctNames : L.DistinctNames) :
    (∀ m, Machine.Reachable L method m → ∀ i,
      ((m.builder.placed i).map fun d => (L.dep d).name).Nodup) ∧
    (∀ fuel r, hoist L method fuel = some (.ok r) → ∀ t ∈ r.trees,
      ((t.dependencies.get r.depIds).map fun d => (L.dep d).name).Nodup) := by
  have reachable {m : Machine} (run : Machine.Reachable L method m) (i : Id) :
      ((m.builder.placed i).map fun d => (L.dep d).name).Nodup := by
    have inv := folders_reachable distinctNames.sortBuf run
    refine List.Nodup.map_on ?_ (List.Nodup.of_map _ (inv.distinct i))
    intro d dPlaced e ePlaced sameName
    have sameHash : (L.dep d).nameHash = (L.dep e).nameHash := by
      rw [hashesNames d (inv.known i d dPlaced),
        hashesNames e (inv.known i e ePlaced), sameName]
    exact List.inj_on_of_nodup_map (inv.distinct i) dPlaced ePlaced sameHash
  refine ⟨fun m run i => reachable run i, ?_⟩
  intro fuel r finished t member
  rcases hoist_run finished with ⟨b, run, _, rfl⟩
  have row : (t.parent, t.dependencyId, t.dependencies.get b.clean.depIds) ∈
      b.clean.rows := List.mem_map_of_mem member
  rw [b.clean_rows] at row
  rcases List.mem_map.mp row with ⟨e, isEntry, same⟩
  simp only [Prod.mk.injEq] at same
  rw [← same.2.2]
  rcases List.getElem_of_mem isEntry with ⟨i, inside, rfl⟩
  have placed : b.placed i = (b.list[i]).dependencies := by
    simp [Builder.placed, Builder.entry, inside]
  rw [← placed]
  exact (reachable run i).sublist (List.filter_sublist.map _)

/-- The root needs `a` and `x`, and `a` needs another version of `x`. -/
def nestedVersion : Lockfile where
  packages :=
    [{ resolution := .root, dependencies := ⟨0, 2⟩, resolutions := ⟨0, 2⟩ },
     { name := [0x61], resolution := .npm {}, dependencies := ⟨2, 1⟩
       resolutions := ⟨2, 1⟩ },
     { name := [0x78], resolution := .npm { major := 1 } },
     { name := [0x78], resolution := .npm { major := 2 } }]
  dependencies :=
    [{ name := [0x61], nameHash := 0x61, behavior := { prod := true } },
     { name := [0x78], nameHash := 0x78, behavior := { prod := true } },
     { name := [0x78], nameHash := 0x78, behavior := { prod := true } }]
  resolutions := [1, 2, 3]
  resolutions_length := rfl
  lists_in_range := by decide
  resolved_in_range := by decide
  dependencies_lt := by decide
  packages_lt := by decide
  packages_pos := by decide

theorem nestedVersion_distinctNames : nestedVersion.DistinctNames := by
  intro p
  match p with
  | 0 | 1 | 2 | 3 => decide
  | p + 4 => simp [nestedVersion, Lockfile.resolutionList, Lockfile.package,
      DependencyIDSlice.range]

example : (hoist nestedVersion .resolvable 1).map (·.map (·.depIds)) =
    some (.ok [0, 1, 2]) := by
  decide +kernel

theorem folder_names_distinct_nested :
    (∀ m, Machine.Reachable nestedVersion .resolvable m → ∀ i,
      ((m.builder.placed i).map fun d => (nestedVersion.dep d).name).Nodup) ∧
    (∀ fuel r, hoist nestedVersion .resolvable fuel = some (.ok r) →
      ∀ t ∈ r.trees,
        ((t.dependencies.get r.depIds).map fun d =>
          (nestedVersion.dep d).name).Nodup) :=
  folder_names_distinct nestedVersion .resolvable
    (fun name => (name.headD 0).toUInt64)
    (by unfold Lockfile.HashesNames; decide) nestedVersion_distinctNames

end Bunx.Install
