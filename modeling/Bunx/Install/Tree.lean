/-
Module: Bunx.Install.Tree
Purpose: The hoisting tree builder: hoist_dependency, process_subtree and the
  breadth-first loop of Lockfile::hoist.
Trusted boundary: none
Main exports:
  Tree, Builder, hoistDependency, processDep, processSubtree, hoistLoop,
  Builder.clean, hoist
-/
import Bunx.Install.Lockfile

namespace Bunx.Install

open Semver (Bytes)

/-- The position of a tree in the builder's list.  Where the source stores
`INVALID_ID`, the model has `none`. -/
abbrev Id := Nat

/-- One `node_modules` folder.  The root tree has no parent, and
`dependencies` counts the ids in the builder's list for this tree. -/
structure Tree where
  id : Id := 0
  dependencyId : DependencyID := invalidDependencyId
  parent : Option Id := none
  dependencies : DependencyIDSlice := {}
deriving Repr, Inhabited, DecidableEq

structure BuilderEntry where
  tree : Tree := {}
  dependencies : List DependencyID := []
deriving Repr, Inhabited, DecidableEq

/-- A placed dependency whose own dependencies are still to be placed.
`hoistRootId` is the tree its subtree will not hoist beyond, if any. -/
structure FillItem where
  treeId : Id
  dependencyId : DependencyID
  hoistRootId : Option Id
deriving Repr, Inhabited, DecidableEq

structure ResolveReplace where
  id : Id
  depId : DependencyID
deriving Repr, Inhabited, DecidableEq

structure Placement where
  id : Id
  bundled : Bool
deriving Repr, Inhabited, DecidableEq

inductive HoistDependencyResult where
  | dependencyLoop
  | hoisted
  | resolve (resId : PackageID)
  | resolveReplace (replace : ResolveReplace)
  | resolveLater
  | placement (dest : Placement)
deriving Repr, Inhabited, DecidableEq

/-- The error of a subtree, with the ids its log line is printed from: the
package, the package already in the tree, and the dependency. -/
inductive SubtreeError where
  | dependencyLoop (packageId resId : PackageID) (dependencyId : DependencyID)
deriving Repr, Inhabited, DecidableEq

/-- What a run writes to the log without failing. -/
inductive LogLine where
  | invalidDependencyName (name : Bytes)
deriving Repr, Inhabited, DecidableEq

/-- `Resolvable` builds every tree; `Filter` leaves out what the installer
disabled.  The filter test reads the installer's options, so it stays a
parameter: a function of the dependency, its package and the resolutions. -/
inductive BuilderMethod where
  | resolvable
  | filter
      (isFilteredDependencyOrWorkspace :
        DependencyID → PackageID → List PackageID → Bool)
      (packagesToInstall : Option (List PackageID))

/-- The mutable part of `tree::Builder`. -/
structure Builder where
  list : List BuilderEntry := []
  resolutions : List PackageID
  queue : List FillItem := []
  log : List LogLine := []
  pendingOptionalPeers : List (UInt64 × List DependencyID) := []
deriving Repr, Inhabited, DecidableEq

namespace Builder

def entry (b : Builder) (id : Id) : BuilderEntry := b.list.getD id {}

def tree (b : Builder) (id : Id) : Tree := (b.entry id).tree

/-- The dependency ids placed in a tree. -/
def placed (b : Builder) (id : Id) : List DependencyID :=
  (b.entry id).dependencies

def resolution (b : Builder) (id : DependencyID) : PackageID :=
  b.resolutions.getD id invalidPackageId

/-- `Tree::dependencies.get(list)` of a tree. -/
def treeDeps (b : Builder) (id : Id) : List DependencyID :=
  (b.tree id).dependencies.get (b.placed id)

/-- `pending_optional_peers.fetch_swap_remove(hash)`. -/
def fetchPending (b : Builder) (hash : UInt64) :
    List DependencyID × List (UInt64 × List DependencyID) :=
  match b.pendingOptionalPeers.find? (·.1 == hash) with
  | some entry => (entry.2, b.pendingOptionalPeers.filter (·.1 != hash))
  | none => ([], b.pendingOptionalPeers)

/-- Resolve `dep` and every pending optional peer of the same name. -/
def resolvePending (b : Builder) (hash : UInt64) (dep : DependencyID)
    (resId : PackageID) : Builder :=
  let (peers, pending) := b.fetchPending hash
  { b with
    resolutions :=
      peers.foldl (fun resolutions peer => resolutions.set peer resId)
        (b.resolutions.set dep resId)
    pendingOptionalPeers := pending }

/-- Remember an unresolved optional peer under its name hash. -/
def addPending (b : Builder) (hash : UInt64) (dep : DependencyID) : Builder :=
  let (peers, pending) := b.fetchPending hash
  { b with pendingOptionalPeers :=
      pending ++ [(hash, if dep ∈ peers then peers else peers ++ [dep])] }

/-- Replace one id by another in the list of a tree. -/
def replacePlaced (b : Builder) (id : Id) (old new : DependencyID) : Builder :=
  { b with list := b.list.modify id fun e =>
      { e with dependencies := e.dependencies.map fun d =>
          if d = old then new else d } }

/-- Append an id to the list of a tree and count it. -/
def place (b : Builder) (id : Id) (dep : DependencyID) : Builder :=
  { b with list := b.list.modify id fun e =>
      { tree := { e.tree with dependencies :=
          { e.tree.dependencies with len := e.tree.dependencies.len + 1 } }
        dependencies := e.dependencies ++ [dep] } }

end Builder

variable (L : Lockfile)

/-- Queue a dependency whose package has dependencies of its own. -/
def Builder.enqueue (b : Builder) (pkgId : PackageID) (item : FillItem) :
    Builder :=
  if pkgId ≠ invalidPackageId ∧ (L.resolutionList pkgId).len > 0 then
    { b with queue := b.queue ++ [item] }
  else b

/-- The version test that lets a peer dependency share another package. -/
def peerSatisfied (dependency : Dependency) (resId : PackageID) : Bool :=
  match dependency.version, (L.package resId).resolution with
  | .npm group, .npm version => group.satisfies version
  | _, _ => false

/-- The decision at the first id of a tree with the name of the dependency. -/
def onSameName (asDefined : Bool) (b : Builder) (id : Id) (depId : DependencyID)
    (packageId : PackageID) (inputDepId : DependencyID) :
    Except SubtreeError HoistDependencyResult :=
  let dependency := L.dep inputDepId
  let dep := L.dep depId
  let resId := b.resolution depId
  if resId = invalidPackageId ∧ packageId = invalidPackageId then
    .ok .resolveLater
  else if resId = invalidPackageId then
    .ok (.resolveReplace { id := id, depId := depId })
  else if packageId = invalidPackageId then
    .ok (.resolve resId)
  else if resId = packageId then
    .ok .hoisted
  else if asDefined ∧ dep.behavior.isDev ≠ dependency.behavior.isDev then
    .ok .hoisted
  else if dependency.behavior.isPeer ∧ peerSatisfied L dependency resId then
    .ok .hoisted
  -- root dependencies may host peers whose version they do not satisfy
  else if dependency.behavior.isPeer ∧ L.isWorkspaceRootDependency depId then
    .ok .hoisted
  else if asDefined ∧ ¬ dep.behavior.isPeer then
    .error (.dependencyLoop packageId resId inputDepId)
  else
    .ok .dependencyLoop

/-- `hoist_dependency`: look for the name in this tree, then in its parents up
to the hoist root.  The recursion climbs parents, and a parent is always an
earlier tree, so the number of trees is enough `fuel`. -/
def hoistDependency (asDefined : Bool) (fuel : Nat) (selfId : Id)
    (hoistRootId : Option Id) (packageId : PackageID) (inputDepId : DependencyID)
    (b : Builder) : Except SubtreeError HoistDependencyResult :=
  let this := b.tree selfId
  let target := (L.dep inputDepId).nameHash
  match (b.treeDeps selfId).find? fun d => (L.dep d).nameHash == target with
  | some depId => onSameName L asDefined b this.id depId packageId inputDepId
  | none =>
      let here := HoistDependencyResult.placement { id := this.id, bundled := false }
      match fuel, this.parent with
      | fuel + 1, some parent =>
          if some this.id ≠ hoistRootId then
            match hoistDependency false fuel parent hoistRootId packageId
                inputDepId b with
            | .error e => .error e
            | .ok result =>
                if !asDefined || result ≠ .dependencyLoop then .ok result
                else .ok here
          else .ok here
      | _, _ => .ok here

/-- The tests that make `process_subtree` skip a dependency under `Filter`. -/
def filteredOut (method : BuilderMethod) (parentPkgId : PackageID)
    (depId : DependencyID) (b : Builder) : Bool :=
  match method with
  | .resolvable => false
  | .filter isFiltered packagesToInstall =>
      let pkgId := b.resolution depId
      isFiltered depId parentPkgId b.resolutions || pkgId == invalidPackageId ||
        match packagesToInstall with
        | none => false
        | some packages => parentPkgId == 0 && !packages.contains pkgId

/-- Where a dependency that passed the filters goes.  Bundled and folder
dependencies are never hoisted; `none` skips an unresolvable dependency. -/
def destination (nextId : Id) (hoistRootId : Option Id) (depId : DependencyID)
    (b : Builder) : Except SubtreeError (Option HoistDependencyResult) :=
  let dependency := L.dep depId
  let pkgId := b.resolution depId
  if dependency.behavior.isBundled then
    .ok (some (.placement { id := nextId, bundled := true }))
  else if pkgId = invalidPackageId then
    if dependency.behavior.isOptionalPeer then
      (hoistDependency L true b.list.length nextId hoistRootId pkgId depId b).map
        some
    else .ok none
  else if (L.package pkgId).resolution.isFolder then
    .ok (some (.placement { id := nextId, bundled := false }))
  else
    (hoistDependency L true b.list.length nextId hoistRootId pkgId depId b).map
      some

/-- The `match hoisted` of `process_subtree`. -/
def applyHoisted (hoistRootId : Option Id) (depId : DependencyID) (b : Builder) :
    HoistDependencyResult → Builder
  | .dependencyLoop | .hoisted => b
  | .resolve resId => b.resolvePending (L.dep depId).nameHash depId resId
  | .resolveReplace replace =>
      let pkgId := b.resolution depId
      let b := b.resolvePending (L.dep depId).nameHash replace.depId pkgId
      let b := b.replacePlaced replace.id replace.depId depId
      b.enqueue L pkgId
        { treeId := replace.id, dependencyId := depId, hoistRootId := hoistRootId }
  | .resolveLater => b.addPending (L.dep depId).nameHash depId
  | .placement dest =>
      let pkgId := b.resolution depId
      (b.place dest.id depId).enqueue L pkgId
        { treeId := dest.id, dependencyId := depId
          -- a bundled dependency starts a new hoist root
          hoistRootId := if dest.bundled then some dest.id else hoistRootId }

/-- A name that may become a folder: an empty one escapes nothing. -/
def nameAllowed (name : Bytes) : Bool :=
  name.isEmpty || isSafeInstallFolderName name

/-- One turn of the `'dep` loop. -/
def processDep (method : BuilderMethod) (parentPkgId : PackageID) (nextId : Id)
    (hoistRootId : Option Id) (depId : DependencyID) (b : Builder) :
    Except SubtreeError Builder :=
  if filteredOut method parentPkgId depId b then .ok b
  else if !nameAllowed (L.dep depId).name then
    .ok { b with log := b.log ++ [.invalidDependencyName (L.dep depId).name] }
  else
    match destination L nextId hoistRootId depId b with
    | .error e => .error e
    | .ok none => .ok b
    | .ok (some result) => .ok (applyHoisted L hoistRootId depId b result)

/-- The `'dep` loop over the sorted dependency ids. -/
def processDeps (method : BuilderMethod) (parentPkgId : PackageID) (nextId : Id)
    (hoistRootId : Option Id) :
    List DependencyID → Builder → Except SubtreeError Builder
  | [], b => .ok b
  | depId :: rest, b =>
      match processDep L method parentPkgId nextId hoistRootId depId b with
      | .error e => .error e
      | .ok b => processDeps method parentPkgId nextId hoistRootId rest b

/-- The package whose dependencies a subtree places. -/
def Builder.parentPkgId (b : Builder) (dependencyId : DependencyID) : PackageID :=
  if dependencyId = rootDepId then 0 else b.resolution dependencyId

/-- Append the tree of a package, still empty. -/
def Builder.openTree (b : Builder) (parent : Option Id)
    (dependencyId : DependencyID) : Builder :=
  { b with list := b.list ++
      [{ tree := { id := b.list.length, dependencyId := dependencyId
                   parent := parent } }] }

/-- Drop the last tree again when nothing was placed in it. -/
def Builder.closeTree (b : Builder) (nextId : Id) : Builder :=
  if (b.tree nextId).dependencies.len = 0 then { b with list := b.list.dropLast }
  else b

/-- `process_subtree`, called on the tree with id `selfId`; the root subtree has
no such tree. -/
def processSubtree (method : BuilderMethod) (selfId : Option Id)
    (dependencyId : DependencyID) (hoistRootId : Option Id) (b : Builder) :
    Except SubtreeError Builder :=
  let parentPkgId := b.parentPkgId dependencyId
  if (L.resolutionList parentPkgId).len = 0 then .ok b
  else
    let nextId := b.list.length
    match processDeps L method parentPkgId nextId hoistRootId
        (L.sortBuf parentPkgId) (b.openTree selfId dependencyId) with
    | .error e => .error e
    | .ok b => .ok (b.closeTree nextId)

/-- The builder `Lockfile::hoist` starts from. -/
def Builder.init : Builder := { resolutions := L.resolutions }

/-- The breadth-first loop; `none` when `fuel` turns did not empty the
queue. -/
def hoistLoop (method : BuilderMethod) :
    Nat → Builder → Option (Except SubtreeError Builder)
  | 0, b => if b.queue = [] then some (.ok b) else none
  | fuel + 1, b =>
      match b.queue with
      | [] => some (.ok b)
      | item :: queue =>
          match processSubtree L method (some (b.tree item.treeId).id)
              item.dependencyId item.hoistRootId { b with queue := queue } with
          | .error e => some (.error e)
          | .ok b => hoistLoop method fuel b

/-- The trees and the flat id buffer a finished builder leaves behind. -/
structure CleanResult where
  trees : List Tree := []
  depIds : List DependencyID := []
deriving Repr, Inhabited, DecidableEq

/-- `clean`: flatten the lists, dropping optional peers that never resolved. -/
def Builder.clean (b : Builder) : CleanResult :=
  b.list.foldl
    (fun r e =>
      let kept := e.dependencies.filter (b.resolution · != invalidPackageId)
      { trees := r.trees ++ [{ e.tree with dependencies :=
          { off := r.depIds.length, len := kept.length } }]
        depIds := r.depIds ++ kept })
    {}

/-- `Lockfile::hoist`, with at most `fuel` turns of its loop. -/
def hoist (method : BuilderMethod) (fuel : Nat) :
    Option (Except SubtreeError CleanResult) :=
  match processSubtree L method none rootDepId none (Builder.init L) with
  | .error e => some (.error e)
  | .ok b => (hoistLoop L method fuel b).map (·.map Builder.clean)

end Bunx.Install
