/-
Module: Bunx.Install.Lockfile
Purpose: The package graph of a lockfile, as the tree builder reads it.
Trusted boundary: none
Main exports:
  Behavior, Dependency, Resolution, Package, Lockfile, DepSorter order,
  isSafeInstallFolderName
-/
import Mathlib.Data.List.Sort
import Bunx.Semver.Query

namespace Bunx.Install

open Semver (Bytes)

abbrev PackageID := Nat
abbrev DependencyID := Nat

/-- `PackageID::MAX`, the resolution of a dependency that has none. -/
abbrev invalidPackageId : PackageID := 2 ^ 32 - 1

/-- `DependencyID::MAX`. -/
abbrev invalidDependencyId : DependencyID := 2 ^ 32 - 1

/-- The flag byte of a dependency; its two padding bits are not kept. -/
structure Behavior where
  prod : Bool := false
  optional : Bool := false
  dev : Bool := false
  peer : Bool := false
  workspace : Bool := false
  bundled : Bool := false
deriving Repr, Inhabited, DecidableEq

namespace Behavior

def isProd (b : Behavior) : Bool := b.prod
def isOptional (b : Behavior) : Bool := b.optional && !b.peer
def isOptionalPeer (b : Behavior) : Bool := b.optional && b.peer
def isDev (b : Behavior) : Bool := b.dev
def isPeer (b : Behavior) : Bool := b.peer
def isWorkspace (b : Behavior) : Bool := b.workspace
def isBundled (b : Behavior) : Bool := b.bundled

/-- Workspaces first, then dev, optional, prod and peer dependencies. -/
def cmp (lhs rhs : Behavior) : Ordering :=
  if lhs = rhs then .eq
  else if lhs.isWorkspace ≠ rhs.isWorkspace then
    if lhs.isWorkspace then .lt else .gt
  else if lhs.isDev ≠ rhs.isDev then if lhs.isDev then .lt else .gt
  else if lhs.isOptional ≠ rhs.isOptional then
    if lhs.isOptional then .lt else .gt
  else if lhs.isProd ≠ rhs.isProd then if lhs.isProd then .lt else .gt
  else if lhs.isPeer ≠ rhs.isPeer then if lhs.isPeer then .lt else .gt
  else .eq

end Behavior

/-- What a dependency asks for.  Only an npm range has a payload the tree
builder looks at. -/
inductive DependencyVersion where
  | uninitialized
  | npm (version : Semver.Group)
  | distTag
  | tarball
  | folder
  | symlink
  | workspace
  | git
  | github
  | catalog
deriving Repr, Inhabited, DecidableEq

structure Dependency where
  name : Bytes := []
  nameHash : UInt64 := 0
  version : DependencyVersion := .uninitialized
  behavior : Behavior := {}
deriving Repr, Inhabited, DecidableEq

/-- Where a package comes from. -/
inductive Resolution where
  | uninitialized
  | root
  | npm (version : Semver.Version)
  | folder
  | localTarball
  | github
  | git
  | symlink
  | workspace
  | remoteTarball
  | singleFileModule
deriving Repr, Inhabited, DecidableEq

/-- `tag == Tag::Folder`. -/
def Resolution.isFolder : Resolution → Bool
  | .folder => true
  | _ => false

/-- `tag == Tag::Npm`. -/
def Resolution.isNpm : Resolution → Bool
  | .npm _ => true
  | _ => false

/-- `ExternalSlice<DependencyID>`: a range of a shared buffer. -/
structure DependencyIDSlice where
  off : Nat := 0
  len : Nat := 0
deriving Repr, Inhabited, DecidableEq

namespace DependencyIDSlice

def contains (s : DependencyIDSlice) (id : Nat) : Bool :=
  s.off ≤ id && id < s.len + s.off

/-- The slice of `buffer`, clamped to its end. -/
def get {α : Type} (s : DependencyIDSlice) (buffer : List α) : List α :=
  (buffer.take (s.off + s.len)).drop s.off

/-- `begin()..end()`. -/
def range (s : DependencyIDSlice) : List Nat := List.range' s.off s.len

theorem mem_range {s : DependencyIDSlice} {id : Nat} :
    id ∈ s.range ↔ s.off ≤ id ∧ id < s.off + s.len := by
  simp [range, List.mem_range'_1]

end DependencyIDSlice

structure Package where
  name : Bytes := []
  resolution : Resolution := .uninitialized
  dependencies : DependencyIDSlice := {}
  resolutions : DependencyIDSlice := {}
deriving Repr, Inhabited, DecidableEq

/-- The dependency id that stands for the root package in a tree. -/
abbrev rootDepId : DependencyID := invalidPackageId - 1

/-- The packages and dependency buffers of a lockfile.  `resolutions` runs
parallel to `dependencies`, and every package lists a range of them. -/
structure Lockfile where
  packages : List Package
  dependencies : List Dependency
  resolutions : List PackageID
  resolutions_length : resolutions.length = dependencies.length
  lists_in_range : ∀ p ∈ packages,
    p.resolutions.off + p.resolutions.len ≤ dependencies.length
  resolved_in_range : ∀ r ∈ resolutions,
    r = invalidPackageId ∨ r < packages.length
  dependencies_lt : dependencies.length ≤ rootDepId
  packages_lt : packages.length ≤ invalidPackageId
  packages_pos : 0 < packages.length

namespace Lockfile

variable (L : Lockfile)

def package (id : PackageID) : Package := L.packages.getD id {}

def dep (id : DependencyID) : Dependency := L.dependencies.getD id {}

/-- `resolution_lists[id]`. -/
def resolutionList (id : PackageID) : DependencyIDSlice :=
  (L.package id).resolutions

/-- Is this a direct dependency of the workspace root? -/
def isWorkspaceRootDependency (id : DependencyID) : Bool :=
  (L.package 0).dependencies.contains id

/-- `DepSorter::is_less_than`. -/
def isLessThan (l r : DependencyID) : Bool :=
  match (L.dep l).behavior.cmp (L.dep r).behavior with
  | .lt => true
  | .gt => false
  | .eq => Semver.order (L.dep l).name (L.dep r).name == .lt

/-- The dependency ids of a package in the order `process_subtree` visits
them. -/
def sortBuf (id : PackageID) : List DependencyID :=
  (L.resolutionList id).range.insertionSort fun l r => !L.isLessThan r l

theorem mem_sortBuf {id : PackageID} {d : DependencyID} :
    d ∈ L.sortBuf id ↔ d ∈ (L.resolutionList id).range := by
  simp [sortBuf, List.mem_insertionSort]

theorem sortBuf_nodup (id : PackageID) : (L.sortBuf id).Nodup :=
  (List.perm_insertionSort _ _).nodup_iff.mpr List.nodup_range'

/-- Every listed dependency lies in the dependency buffer. -/
theorem listed_lt {p : PackageID} {d : Nat}
    (listed : d ∈ (L.resolutionList p).range) : d < L.dependencies.length := by
  rw [DependencyIDSlice.mem_range] at listed
  by_cases inside : p < L.packages.length
  · have bound := L.lists_in_range L.packages[p] (List.getElem_mem inside)
    have same : L.resolutionList p = L.packages[p].resolutions := by
      simp [resolutionList, package, inside]
    rw [same] at listed
    omega
  · have empty : L.resolutionList p = {} := by
      simp [resolutionList, package, inside]
    rw [empty] at listed
    simp at listed

end Lockfile

/-- Each `/`-separated component is nonempty, is neither `.` nor `..`, and has
no backslash, colon or NUL. -/
def isSafeInstallFolderName (name : Bytes) : Bool :=
  if name.isEmpty then false
  else
    (name.splitOn 0x2f).all fun component =>
      !(component.isEmpty || component == [0x2e] || component == [0x2e, 0x2e]) &&
        component.all fun c => !(c == 0x5c || c == 0x3a || c == 0)

end Bunx.Install
