/-
Module: Bunx.Install.TreeShape
Purpose: What the builder's operations do to the trees, and what
  hoist_dependency finds when it climbs them.
Trusted boundary: none
Main exports:
  Builder.Shape, Climb, Climb.exists, hoistDependency_false, hoistDependency_true
-/
import Bunx.Install.Tree

namespace Bunx.Install

namespace Builder

variable (b : Builder)

/-! ### The trees after each operation -/

theorem entry_of_length_le {i : Nat} (outside : b.list.length ≤ i) :
    b.entry i = {} := by
  simp [entry, outside]

theorem placed_of_length_le {i : Nat} (outside : b.list.length ≤ i) :
    b.placed i = [] := by
  simp [placed, b.entry_of_length_le outside]

/-- A tree in which something is placed exists. -/
theorem lt_of_mem_placed {i : Nat} {d : DependencyID} (member : d ∈ b.placed i) :
    i < b.list.length := by
  by_contra outside
  rw [b.placed_of_length_le (Nat.le_of_not_lt outside)] at member
  cases member

@[simp] theorem place_length (id : Id) (d : DependencyID) :
    (b.place id d).list.length = b.list.length := by
  simp [place]

@[simp] theorem place_queue (id : Id) (d : DependencyID) :
    (b.place id d).queue = b.queue := rfl

@[simp] theorem place_resolutions (id : Id) (d : DependencyID) :
    (b.place id d).resolutions = b.resolutions := rfl

theorem place_entry_of_ne {id i : Nat} (d : DependencyID) (other : i ≠ id) :
    (b.place id d).entry i = b.entry i := by
  simp [place, entry, Ne.symm other]

theorem place_placed_self {id : Nat} (d : DependencyID)
    (inside : id < b.list.length) :
    (b.place id d).placed id = b.placed id ++ [d] := by
  simp [place, placed, entry, inside]

theorem place_placed_of_ne {id i : Nat} (d : DependencyID) (other : i ≠ id) :
    (b.place id d).placed i = b.placed i := by
  simp [placed, b.place_entry_of_ne d other]

/-- Placing leaves a tree's id, parent and package as they are. -/
theorem place_tree (id i : Nat) (d : DependencyID) :
    ((b.place id d).tree i).id = (b.tree i).id ∧
      ((b.place id d).tree i).parent = (b.tree i).parent ∧
      ((b.place id d).tree i).dependencyId = (b.tree i).dependencyId := by
  by_cases same : i = id
  · subst same
    by_cases inside : i < b.list.length
    · simp [place, tree, entry, inside]
    · simp [place, tree, entry, inside]
  · simp [tree, b.place_entry_of_ne d same]

@[simp] theorem replacePlaced_length (id : Id) (old new : DependencyID) :
    (b.replacePlaced id old new).list.length = b.list.length := by
  simp [replacePlaced]

@[simp] theorem replacePlaced_queue (id : Id) (old new : DependencyID) :
    (b.replacePlaced id old new).queue = b.queue := rfl

@[simp] theorem replacePlaced_resolutions (id : Id) (old new : DependencyID) :
    (b.replacePlaced id old new).resolutions = b.resolutions := rfl

/-- Replacing touches no tree record, only the ids in one list. -/
theorem replacePlaced_tree (id i : Nat) (old new : DependencyID) :
    (b.replacePlaced id old new).tree i = b.tree i := by
  by_cases same : i = id
  · subst same
    by_cases inside : i < b.list.length
    · simp [replacePlaced, tree, entry, inside]
    · simp [replacePlaced, tree, entry, inside]
  · simp [replacePlaced, tree, entry, Ne.symm same]

theorem replacePlaced_placed_self (id : Nat) (old new : DependencyID) :
    (b.replacePlaced id old new).placed id =
      (b.placed id).map fun d => if d = old then new else d := by
  by_cases inside : id < b.list.length
  · simp [replacePlaced, placed, entry, inside]
  · simp [replacePlaced, placed, entry, inside]

theorem replacePlaced_placed_of_ne {id i : Nat} (old new : DependencyID)
    (other : i ≠ id) :
    (b.replacePlaced id old new).placed i = b.placed i := by
  simp [replacePlaced, placed, entry, Ne.symm other]

@[simp] theorem openTree_length (parent : Option Id) (d : DependencyID) :
    (b.openTree parent d).list.length = b.list.length + 1 := by
  simp [openTree]

@[simp] theorem openTree_queue (parent : Option Id) (d : DependencyID) :
    (b.openTree parent d).queue = b.queue := rfl

@[simp] theorem openTree_resolutions (parent : Option Id) (d : DependencyID) :
    (b.openTree parent d).resolutions = b.resolutions := rfl

theorem openTree_entry_of_ne (parent : Option Id) (d : DependencyID) {i : Nat}
    (other : i ≠ b.list.length) :
    (b.openTree parent d).entry i = b.entry i := by
  rcases Nat.lt_or_gt_of_ne other with before | after
  · simp [openTree, entry, List.getElem?_append_left before]
  · have outside : b.list.length + 1 ≤ i := after
    rw [b.entry_of_length_le (Nat.le_of_lt after),
      entry_of_length_le _ (by simpa using outside)]

theorem openTree_entry_new (parent : Option Id) (d : DependencyID) :
    (b.openTree parent d).entry b.list.length =
      { tree := { id := b.list.length, dependencyId := d, parent := parent } } := by
  simp [openTree, entry]

theorem openTree_placed (parent : Option Id) (d : DependencyID) (i : Nat) :
    (b.openTree parent d).placed i = b.placed i := by
  by_cases new : i = b.list.length
  · subst new
    simp [placed, openTree_entry_new, entry_of_length_le]
  · simp [placed, b.openTree_entry_of_ne parent d new]

variable (L : Lockfile)

@[simp] theorem enqueue_list (pkgId : PackageID) (item : FillItem) :
    (b.enqueue L pkgId item).list = b.list := by
  unfold enqueue
  split <;> rfl

@[simp] theorem enqueue_resolutions (pkgId : PackageID) (item : FillItem) :
    (b.enqueue L pkgId item).resolutions = b.resolutions := by
  unfold enqueue
  split <;> rfl

@[simp] theorem resolvePending_list (hash : UInt64) (d : DependencyID)
    (resId : PackageID) : (b.resolvePending hash d resId).list = b.list := rfl

@[simp] theorem resolvePending_queue (hash : UInt64) (d : DependencyID)
    (resId : PackageID) : (b.resolvePending hash d resId).queue = b.queue := rfl

@[simp] theorem addPending_list (hash : UInt64) (d : DependencyID) :
    (b.addPending hash d).list = b.list := rfl

@[simp] theorem addPending_queue (hash : UInt64) (d : DependencyID) :
    (b.addPending hash d).queue = b.queue := rfl

/-- Two builders with the same trees place the same ids. -/
theorem entry_congr {b b' : Builder} (same : b'.list = b.list) (i : Nat) :
    b'.entry i = b.entry i := by
  rw [entry, entry, same]

theorem placed_congr {b b' : Builder} (same : b'.list = b.list) (i : Nat) :
    b'.placed i = b.placed i := by
  rw [placed, placed, entry_congr same]

theorem tree_congr {b b' : Builder} (same : b'.list = b.list) (i : Nat) :
    b'.tree i = b.tree i := by
  rw [tree, tree, entry_congr same]

/-! ### The shape of the tree list -/

/-- Every tree stands at the position its id says, below an earlier tree, and
its slice counts exactly the ids placed in it. -/
structure Shape (b : Builder) : Prop where
  id_eq : ∀ i : Nat, i < b.list.length → (b.tree i).id = i
  parent_lt : ∀ i p : Nat, (b.tree i).parent = some p → p < i
  slice_eq : ∀ i : Nat, (b.tree i).dependencies = ⟨0, (b.placed i).length⟩

namespace Shape

variable {b : Builder}

theorem init (L : Lockfile) : Shape (Builder.init L) where
  id_eq := by simp [Builder.init]
  parent_lt := by simp [Builder.init, tree, entry]
  slice_eq := by simp [Builder.init, tree, placed, entry]

/-- Only the list of trees matters. -/
theorem congr {b' : Builder} (shape : Shape b) (same : b'.list = b.list) :
    Shape b' where
  id_eq i inside := by
    rw [tree_congr same]
    exact shape.id_eq i (same ▸ inside)
  parent_lt i p parent := shape.parent_lt i p (tree_congr same i ▸ parent)
  slice_eq i := by
    rw [tree_congr same, placed_congr same]
    exact shape.slice_eq i

theorem place (shape : Shape b) (id : Id) (d : DependencyID) :
    Shape (b.place id d) where
  id_eq i inside := by
    rw [(b.place_tree id i d).1]
    exact shape.id_eq i (by simpa using inside)
  parent_lt i p parent := by
    rw [(b.place_tree id i d).2.1] at parent
    exact shape.parent_lt i p parent
  slice_eq i := by
    by_cases same : i = id
    · subst same
      by_cases inside : i < b.list.length
      · have slice := shape.slice_eq i
        rw [b.place_placed_self d inside]
        simp [Builder.place, tree, placed, entry, inside]
          at slice ⊢
        simp [slice]
      · rw [placed_of_length_le _ (by simpa using inside)]
        simp [tree, entry_of_length_le (b.place i d) (i := i)
          (by simpa using inside)]
    · rw [b.place_placed_of_ne d same, tree, b.place_entry_of_ne d same]
      exact shape.slice_eq i

theorem replacePlaced (shape : Shape b) (id : Id) (old new : DependencyID) :
    Shape (b.replacePlaced id old new) where
  id_eq i inside := by
    rw [b.replacePlaced_tree]
    exact shape.id_eq i (by simpa using inside)
  parent_lt i p parent := by
    rw [b.replacePlaced_tree] at parent
    exact shape.parent_lt i p parent
  slice_eq i := by
    rw [b.replacePlaced_tree, shape.slice_eq i]
    by_cases same : i = id
    · subst same
      rw [b.replacePlaced_placed_self, List.length_map]
    · rw [b.replacePlaced_placed_of_ne old new same]

/-- A new tree hangs below a tree that exists already. -/
theorem openTree (shape : Shape b) {parent : Option Id}
    (below : ∀ p, parent = some p → p < b.list.length) (d : DependencyID) :
    Shape (b.openTree parent d) where
  id_eq i inside := by
    by_cases new : i = b.list.length
    · subst new
      simp [tree, openTree_entry_new]
    · rw [tree, b.openTree_entry_of_ne parent d new]
      exact shape.id_eq i (by simp at inside; omega)
  parent_lt i p isParent := by
    by_cases new : i = b.list.length
    · subst new
      simp only [tree, openTree_entry_new] at isParent
      exact below p isParent
    · rw [tree, b.openTree_entry_of_ne parent d new] at isParent
      exact shape.parent_lt i p isParent
  slice_eq i := by
    rw [b.openTree_placed]
    by_cases new : i = b.list.length
    · subst new
      simp [tree, openTree_entry_new, placed_of_length_le]
    · rw [tree, b.openTree_entry_of_ne parent d new]
      exact shape.slice_eq i

/-- The clamped slice of a tree is its whole list. -/
theorem treeDeps_eq (shape : Shape b) (i : Nat) : b.treeDeps i = b.placed i := by
  simp [treeDeps, shape.slice_eq i, DependencyIDSlice.get]

end Shape

end Builder

/-! ### Climbing -/

/-- Where a climb through the parents ends: at an id of the wanted name, or in
the last tree it may look at. -/
inductive Found where
  | entry (id : Id) (dep : DependencyID)
  | top (id : Id)
deriving Repr, DecidableEq

def Found.dep : Found → Option DependencyID
  | .entry _ dep => some dep
  | .top _ => none

variable (L : Lockfile)

/-- The first id in a tree whose name hashes to `target`. -/
def Builder.lookHere (b : Builder) (target : UInt64) (id : Id) :
    Option DependencyID :=
  (b.placed id).find? fun d => (L.dep d).nameHash == target

/-- The search of `hoist_dependency`, from a tree up to the hoist root. -/
inductive Climb (b : Builder) (hoistRootId : Option Id) (target : UInt64) :
    Id → Found → Prop where
  | found {id : Id} {dep : DependencyID}
      (here : b.lookHere L target id = some dep) :
      Climb b hoistRootId target id (.entry id dep)
  | top {id : Id} (absent : b.lookHere L target id = none)
      (last : (b.tree id).parent = none ∨ some id = hoistRootId) :
      Climb b hoistRootId target id (.top id)
  | up {id parent : Id} {result : Found}
      (absent : b.lookHere L target id = none)
      (isParent : (b.tree id).parent = some parent)
      (inner : some id ≠ hoistRootId)
      (rest : Climb b hoistRootId target parent result) :
      Climb b hoistRootId target id result

/-- The climb as a function; the number of trees is enough `fuel`. -/
def Builder.climb (b : Builder) (hoistRootId : Option Id) (target : UInt64) :
    Nat → Id → Found
  | fuel, id =>
      match b.lookHere L target id, fuel, (b.tree id).parent with
      | some dep, _, _ => .entry id dep
      | none, fuel + 1, some parent =>
          if some id = hoistRootId then .top id
          else climb b hoistRootId target fuel parent
      | none, _, _ => .top id

/-- What a climb amounts to when it is not the tree's own list. -/
def climbResult (b : Builder) (packageId : PackageID) (inputDepId : DependencyID) :
    Found → Except SubtreeError HoistDependencyResult
  | .entry id dep => onSameName L false b id dep packageId inputDepId
  | .top id => .ok (.placement { id := id, bundled := false })

variable {L} {b : Builder}

theorem Builder.lookHere_some {target : UInt64} {id : Id} {d : DependencyID}
    (here : b.lookHere L target id = some d) :
    d ∈ b.placed id ∧ (L.dep d).nameHash = target := by
  rw [lookHere] at here
  exact ⟨List.mem_of_find?_eq_some here, by simpa using List.find?_some here⟩

theorem Builder.lookHere_none {target : UInt64} {id : Id} :
    b.lookHere L target id = none ↔
      ∀ d ∈ b.placed id, (L.dep d).nameHash ≠ target := by
  simp [lookHere]

/-- Only `AS_DEFINED` reports an error. -/
theorem onSameName_false_ok (b : Builder) (id : Id) (depId : DependencyID)
    (packageId : PackageID) (inputDepId : DependencyID) :
    ∃ result, onSameName L false b id depId packageId inputDepId = .ok result := by
  simp only [onSameName, Bool.false_eq_true, false_and, if_false]
  repeat' split
  all_goals exact ⟨_, rfl⟩

/-- Every entry found on the way carries the wanted name hash and lies in a
tree that exists. -/
theorem Climb.entry_spec {hoistRootId : Option Id} {target : UInt64}
    {start id : Id} {dep : DependencyID}
    (climb : Climb L b hoistRootId target start (.entry id dep)) :
    b.lookHere L target id = some dep := by
  generalize same : Found.entry id dep = result at climb
  induction climb with
  | found here =>
      cases same
      exact here
  | top => cases same
  | up _ _ _ _ ih => exact ih same

/-- A climb has one result. -/
theorem Climb.functional {hoistRootId : Option Id} {target : UInt64} {id : Id}
    {found found' : Found} (climb : Climb L b hoistRootId target id found)
    (climb' : Climb L b hoistRootId target id found') : found = found' := by
  induction climb with
  | found here =>
      cases climb' with
      | found here' => rw [here] at here'; cases here'; rfl
      | top absent => rw [here] at absent; cases absent
      | up absent => rw [here] at absent; cases absent
  | top absent last =>
      cases climb' with
      | found here => rw [absent] at here; cases here
      | top => rfl
      | up _ isParent inner =>
          rcases last with noParent | root
          · rw [noParent] at isParent
            cases isParent
          · exact absurd root inner
  | up absent isParent inner _ ih =>
      cases climb' with
      | found here => rw [absent] at here; cases here
      | top _ last =>
          rcases last with noParent | root
          · rw [noParent] at isParent
            cases isParent
          · exact absurd root inner
      | up _ isParent' _ rest =>
          rw [isParent] at isParent'
          cases isParent'
          exact ih rest

/-- The first tree has no parent. -/
theorem Builder.Shape.parent_zero (shape : b.Shape) : (b.tree 0).parent = none := by
  cases isParent : (b.tree 0).parent with
  | none => rfl
  | some p => exact absurd (shape.parent_lt 0 p isParent) (Nat.not_lt_zero p)

/-- The function computes the climb. -/
theorem Builder.climb_spec (shape : b.Shape) (hoistRootId : Option Id)
    (target : UInt64) {fuel id : Nat} (bound : id ≤ fuel) :
    Climb L b hoistRootId target id (b.climb L hoistRootId target fuel id) := by
  induction fuel generalizing id with
  | zero =>
      obtain rfl : id = 0 := Nat.le_zero.mp bound
      unfold climb
      cases here : b.lookHere L target 0 with
      | some dep => exact .found here
      | none => exact .top here (.inl shape.parent_zero)
  | succ fuel ih =>
      unfold climb
      cases here : b.lookHere L target id with
      | some dep => exact .found here
      | none =>
          cases isParent : (b.tree id).parent with
          | none => exact .top here (.inl isParent)
          | some p =>
              by_cases root : some id = hoistRootId
              · simp only [root, if_true]
                exact .top here (.inr root)
              · simp only [root, if_false]
                have earlier := shape.parent_lt id p isParent
                exact .up here isParent root (ih (by omega))

/-- The last tree of a climb that found nothing lacks the name, and is the
root or the hoist root. -/
theorem Climb.top_spec {hoistRootId : Option Id} {target : UInt64}
    {start id : Id} (climb : Climb L b hoistRootId target start (.top id)) :
    b.lookHere L target id = none ∧
      ((b.tree id).parent = none ∨ some id = hoistRootId) := by
  generalize same : Found.top id = result at climb
  induction climb with
  | found => cases same
  | top absent last =>
      cases same
      exact ⟨absent, last⟩
  | up _ _ _ _ ih => exact ih same

/-- A climb from an existing tree stays among the earlier trees. -/
theorem Climb.top_le {hoistRootId : Option Id} {target : UInt64}
    (shape : b.Shape) {start id : Nat}
    (climb : Climb L b hoistRootId target start (.top id)) : id ≤ start := by
  generalize same : Found.top id = result at climb
  induction climb with
  | found => cases same
  | top =>
      cases same
      exact Nat.le_refl _
  | up _ isParent _ _ ih =>
      exact Nat.le_trans (ih same)
        (Nat.le_of_lt (shape.parent_lt _ _ isParent))

/-- `hoist_dependency` on an existing tree of a well-shaped list. -/
theorem hoistDependency_eq (shape : b.Shape) (asDefined : Bool)
    (hoistRootId : Option Id) (packageId : PackageID) (inputDepId : DependencyID)
    {id : Nat} (inside : id < b.list.length) (fuel : Nat) :
    hoistDependency L asDefined fuel id hoistRootId packageId inputDepId b =
      match b.lookHere L (L.dep inputDepId).nameHash id with
      | some d => onSameName L asDefined b id d packageId inputDepId
      | none =>
          match fuel, (b.tree id).parent with
          | fuel + 1, some parent =>
              if some id ≠ hoistRootId then
                match hoistDependency L false fuel parent hoistRootId packageId
                    inputDepId b with
                | .error e => .error e
                | .ok result =>
                    if !asDefined || result ≠ .dependencyLoop then .ok result
                    else .ok (.placement { id := id, bundled := false })
              else .ok (.placement { id := id, bundled := false })
          | _, _ => .ok (.placement { id := id, bundled := false }) := by
  conv_lhs => unfold hoistDependency
  simp only [shape.treeDeps_eq, shape.id_eq id inside]
  rfl

/-- Without `AS_DEFINED`, `hoist_dependency` returns what the climb finds. -/
theorem hoistDependency_false (shape : b.Shape) (hoistRootId : Option Id)
    (packageId : PackageID) (inputDepId : DependencyID) :
    ∀ {fuel id : Nat}, id < b.list.length → id ≤ fuel →
      ∃ found, Climb L b hoistRootId (L.dep inputDepId).nameHash id found ∧
        hoistDependency L false fuel id hoistRootId packageId inputDepId b =
          climbResult L b packageId inputDepId found := by
  intro fuel
  induction fuel with
  | zero =>
      intro id inside bound
      obtain rfl : id = 0 := Nat.le_zero.mp bound
      rw [hoistDependency_eq shape _ _ _ _ inside]
      cases here : b.lookHere L (L.dep inputDepId).nameHash 0 with
      | some d => exact ⟨_, .found here, rfl⟩
      | none => exact ⟨_, .top here (.inl shape.parent_zero), rfl⟩
  | succ fuel ih =>
      intro id inside bound
      rw [hoistDependency_eq shape _ _ _ _ inside]
      cases here : b.lookHere L (L.dep inputDepId).nameHash id with
      | some d => exact ⟨_, .found here, rfl⟩
      | none =>
          cases isParent : (b.tree id).parent with
          | none => exact ⟨_, .top here (.inl isParent), rfl⟩
          | some p =>
              by_cases root : some id = hoistRootId
              · exact ⟨_, .top here (.inr root), by simp [root, climbResult]⟩
              · have earlier := shape.parent_lt id p isParent
                have pInside := Nat.lt_trans earlier inside
                have pBound := Nat.le_of_lt_succ (Nat.lt_of_lt_of_le earlier bound)
                rcases ih pInside pBound with
                  ⟨found, climb, result⟩
                refine ⟨found, .up here isParent root climb, ?_⟩
                simp only [ne_eq, root, not_false_eq_true, if_true, result]
                cases found with
                | top => rfl
                | entry i d =>
                    rcases onSameName_false_ok (L := L) b i d packageId
                      inputDepId with ⟨r, ok⟩
                    simp [climbResult, ok]

/-- With `AS_DEFINED`, the tree's own list decides first; a conflict further up
puts the dependency here, and anything else the climb says is returned. -/
theorem hoistDependency_true (shape : b.Shape) (hoistRootId : Option Id)
    (packageId : PackageID) (inputDepId : DependencyID) {fuel id : Nat}
    (inside : id < b.list.length) (bound : id ≤ fuel) :
    (∃ d, b.lookHere L (L.dep inputDepId).nameHash id = some d ∧
      hoistDependency L true fuel id hoistRootId packageId inputDepId b =
        onSameName L true b id d packageId inputDepId) ∨
    (b.lookHere L (L.dep inputDepId).nameHash id = none ∧
      ((b.tree id).parent = none ∨ some id = hoistRootId) ∧
      hoistDependency L true fuel id hoistRootId packageId inputDepId b =
        .ok (.placement { id := id, bundled := false })) ∨
    (∃ p found r, b.lookHere L (L.dep inputDepId).nameHash id = none ∧
      (b.tree id).parent = some p ∧ some id ≠ hoistRootId ∧
      Climb L b hoistRootId (L.dep inputDepId).nameHash p found ∧
      climbResult L b packageId inputDepId found = .ok r ∧
      hoistDependency L true fuel id hoistRootId packageId inputDepId b =
        .ok (if r = .dependencyLoop then
          .placement { id := id, bundled := false } else r)) := by
  rw [hoistDependency_eq shape _ _ _ _ inside]
  cases here : b.lookHere L (L.dep inputDepId).nameHash id with
  | some d => exact .inl ⟨d, rfl, rfl⟩
  | none =>
      right
      cases isParent : (b.tree id).parent with
      | none => exact .inl ⟨rfl, .inl rfl, by cases fuel <;> rfl⟩
      | some p =>
          have earlier := shape.parent_lt id p isParent
          obtain ⟨fuel, rfl⟩ : ∃ n, fuel = n + 1 := ⟨fuel - 1, by omega⟩
          by_cases root : some id = hoistRootId
          · exact .inl ⟨rfl, .inr root, by simp [root]⟩
          · have pInside := Nat.lt_trans earlier inside
            have pBound := Nat.le_of_lt_succ (Nat.lt_of_lt_of_le earlier bound)
            rcases hoistDependency_false (L := L) shape hoistRootId packageId
              inputDepId pInside pBound with ⟨found, climb, result⟩
            obtain ⟨r, ok⟩ : ∃ r,
                climbResult L b packageId inputDepId found = .ok r := by
              cases found with
              | top => exact ⟨_, rfl⟩
              | entry i d => exact onSameName_false_ok b i d packageId inputDepId
            refine .inr ⟨p, found, r, rfl, rfl, root, climb, ok, ?_⟩
            simp only [ne_eq, root, not_false_eq_true, if_true, result, ok]
            by_cases loop : r = .dependencyLoop <;> simp [loop]

end Bunx.Install
