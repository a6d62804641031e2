/-
Module: Bunx.IsolatedInstall.EntryHash
Purpose: The hash that an entry of the isolated store gets for its directory in the global
  store, in three passes: a depth-first one over the dependencies, one over the strongly
  connected components, and one that passes ineligibility on to dependents.
Trusted boundary: none
Main exports: Store, Hasher, DfsPass.turn, dfsPass, sccPass, sweep, entryHashes
-/
import Mathlib.Data.List.Sort
import Bunx.IsolatedInstall.Wyhash
import Bunx.Lib.Tarjan

namespace Bunx.IsolatedInstall

open Bunx.Lib

/-! ### Entries -/

inductive ResolutionTag where
  | uninitialized
  | root
  | npm
  | folder
  | localTarball
  | github
  | git
  | symlink
  | workspace
  | remoteTarball
  | singleFileModule
deriving DecidableEq

/-- `tag` and the digest, padded to 64 bytes. -/
structure Integrity where
  tag : UInt8
  value : Bytes
  padded : value.length = 64

def Integrity.bytes (integrity : Integrity) : Bytes := integrity.tag :: integrity.value

/-- An edge: the dependency as the package names it, and the entry it was resolved to. -/
structure DependenciesItem (n : Nat) where
  entryId : Fin n
  name : Bytes
  nameHash : UInt64

/-- What the passes read of an entry, of its node, its package and the lockfile: the text of
`fmt_store_path`, and whether the package is listed as patched or trusted. -/
structure Entry (n : Nat) where
  storePath : Bytes
  integrity : Integrity
  tag : ResolutionTag
  patched : Bool
  trusted : Bool
  trustedFromUpdate : Bool
  dependencies : List (DependenciesItem n)

/-- May the package's directory be shared? -/
def Entry.eligible {n : Nat} (entry : Entry n) : Bool :=
  match entry.tag with
  | .npm | .git | .github | .localTarball | .remoteTarball =>
      if entry.patched then false
      else if entry.trusted || entry.trustedFromUpdate then false
      else true
  | _ => false

structure Store (n : Nat) where
  entries : Fin n → Entry n

namespace Store

variable {n : Nat} (store : Store n)

def dependencies (e : Fin n) : List (DependenciesItem n) := (store.entries e).dependencies

/-- The entries that an entry depends on. -/
def succ (e : Fin n) : List (Fin n) := (store.dependencies e).map DependenciesItem.entryId

end Store

/-! ### Hashing -/

/-- What the passes use of a hasher. -/
structure Hasher where
  Core : Type
  init : UInt64 → Core
  update : Core → Bytes → Core
  final_ : Core → UInt64

def wyhash : Hasher where
  Core := Wyhash
  init := Wyhash.init
  update := Wyhash.update
  final_ := Wyhash.final_

/-- The bytes of a hash. -/
def bytesOf (hash : UInt64) : Bytes := leBytes 8 hash.toNat

/-- 0 is the "not eligible" sentinel. -/
def notZero (hash : UInt64) : UInt64 := if hash = 0 then 1 else hash

def entrySeed : UInt64 := 0x9E3779B97F4A7C15

def sccSeed : UInt64 := 0x42A7C15F9E3779B9

variable (hasher : Hasher) {n : Nat} (store : Store n)

/-- A hasher that was fed the store path and the integrity of an entry. -/
def begin (seed : UInt64) (e : Fin n) : hasher.Core :=
  hasher.update (hasher.update (hasher.init seed) (store.entries e).storePath)
    (store.entries e).integrity.bytes

/-- A hasher that was fed the name and the hash of a dependency. -/
def fold (core : hasher.Core) (nameHash hash : UInt64) : hasher.Core :=
  hasher.update (hasher.update core (bytesOf nameHash)) (bytesOf hash)

/-! ### Depth-first pass -/

inductive State where
  | unvisited
  | inProgress
  | ineligible
  | done
deriving DecidableEq

structure StackFrame (n : Nat) (Core : Type) where
  id : Fin n
  depIdx : Nat
  hasher : Core

/-- The stack has its last frame first. -/
structure DfsPass (n : Nat) (Core : Type) where
  states : Fin n → State
  entryHashes : Fin n → UInt64
  stack : List (StackFrame n Core)

namespace DfsPass

variable {hasher} {store}

def setState {Core : Type} (d : DfsPass n Core) (e : Fin n) (state : State) : DfsPass n Core :=
  { d with states := Function.update d.states e state }

def setHash {Core : Type} (d : DfsPass n Core) (e : Fin n) (hash : UInt64) : DfsPass n Core :=
  { d with entryHashes := Function.update d.entryHashes e hash }

/-- The dependencies of the entry on top that are left. Gives the hasher unless there is one
to visit first. -/
def scan (d : DfsPass n hasher.Core) (id : Fin n) (below : List (StackFrame n hasher.Core)) :
    List (DependenciesItem n) → Nat → hasher.Core → DfsPass n hasher.Core × Option hasher.Core
  | [], depIdx, core => ({ d with stack := ⟨id, depIdx, core⟩ :: below }, some core)
  | dep :: more, depIdx, core =>
      match d.states dep.entryId with
      | .done =>
          scan d id below more (depIdx + 1)
            (fold hasher core dep.nameHash (d.entryHashes dep.entryId))
      | .ineligible =>
          ({ (d.setState id .ineligible).setHash id 0 with
              stack := ⟨id, depIdx, core⟩ :: below }, some core)
      | .inProgress =>
          -- A back edge: the hash is not known yet.
          scan d id below more (depIdx + 1) (hasher.update core (bytesOf dep.nameHash))
      | .unvisited =>
          ({ d with stack := ⟨dep.entryId, 0, hasher.init 0⟩ :: ⟨id, depIdx, core⟩ :: below },
            none)

/-- The entry on top, which is visited by now. -/
def explore (store : Store n) (d : DfsPass n hasher.Core) (top : StackFrame n hasher.Core)
    (below : List (StackFrame n hasher.Core)) : DfsPass n hasher.Core :=
  if d.states top.id = .ineligible then { d with stack := below }
  else
    match d.scan top.id below ((store.dependencies top.id).drop top.depIdx) top.depIdx
        top.hasher with
    | (d, none) => d
    | (d, some core) =>
        if d.states top.id ≠ .ineligible then
          { (d.setHash top.id (notZero (hasher.final_ core))).setState top.id .done with
            stack := below }
        else { d with stack := below }

/-- One turn of the loop over the stack. -/
def turn (store : Store n) (d : DfsPass n hasher.Core) : Option (DfsPass n hasher.Core) :=
  match d.stack with
  | [] => none
  | top :: below =>
      if d.states top.id = .unvisited then
        let d := d.setState top.id .inProgress
        if ¬(store.entries top.id).eligible then
          some { (d.setState top.id .ineligible).setHash top.id 0 with stack := below }
        else some (d.explore store { top with hasher := begin hasher store entrySeed top.id } below)
      else some (d.explore store top below)

def start : DfsPass n hasher.Core :=
  { states := fun _ => .unvisited, entryHashes := fun _ => 0, stack := [] }

end DfsPass

/-- From each entry that is not visited yet. -/
def dfsPass (fuel : Nat) : Option (DfsPass n hasher.Core) :=
  (List.finRange n).foldlM (fun d root =>
    if d.states root ≠ .unvisited then some d
    else loop (DfsPass.turn store) fuel { d with stack := [⟨root, 0, hasher.init 0⟩] })
    DfsPass.start

/-! ### Component pass -/

/-- A component of one entry gets its hash from the final ones of its dependencies; `none`
when one of them is not eligible. -/
def recompute (hashes : Fin n → UInt64) :
    List (DependenciesItem n) → hasher.Core → Option hasher.Core
  | [], sub => some sub
  | dep :: more, sub =>
      if hashes dep.entryId = 0 then none
      else recompute hashes more (fold hasher sub dep.nameHash (hashes dep.entryId))

def singleton (hashes : Fin n → UInt64) (m : Fin n) : Fin n → UInt64 :=
  if hashes m ≠ 0 then
    match recompute hasher hashes (store.dependencies m) (begin hasher store entrySeed m) with
    | none => Function.update hashes m 0
    | some sub => Function.update hashes m (notZero (hasher.final_ sub))
  else hashes

/-- What is collected of a larger component. -/
structure Gathered where
  memberSub : List UInt64
  sccExt : List UInt64
  anyIneligible : Bool

/-- `ArrayHashMap::put` of a key. -/
def put (keys : List UInt64) (key : UInt64) : List UInt64 :=
  if key ∈ keys then keys else keys ++ [key]

/-- A dependency of a member; one inside the component is skipped. -/
def gatherDep (hashes : Fin n → UInt64) (members : List (Fin n)) (g : Gathered)
    (dep : DependenciesItem n) : Gathered :=
  if dep.entryId ∈ members then g
  else
    { g with
      anyIneligible := g.anyIneligible || hashes dep.entryId == 0
      sccExt := put g.sccExt
        (hasher.final_ (fold hasher (hasher.init 0) dep.nameHash (hashes dep.entryId))) }

def gatherMember (hashes : Fin n → UInt64) (members : List (Fin n)) (g : Gathered)
    (m : Fin n) : Gathered :=
  (store.dependencies m).foldl (gatherDep hasher hashes members)
    { g with
      anyIneligible := g.anyIneligible || hashes m == 0
      memberSub := g.memberSub ++ [hasher.final_ (begin hasher store 0 m)] }

def sortUnstable (keys : List UInt64) : List UInt64 := keys.insertionSort (· ≤ ·)

/-- All members of a larger component get one hash. -/
def several (hashes : Fin n → UInt64) (members : List (Fin n)) : Fin n → UInt64 :=
  let g := members.foldl (gatherMember hasher store hashes members) ⟨[], [], false⟩
  let memberSub := sortUnstable g.memberSub
  let extKeys := sortUnstable g.sccExt
  let core := memberSub.foldl (fun core k => hasher.update core (bytesOf k)) (hasher.init sccSeed)
  let core := extKeys.foldl (fun core k => hasher.update core (bytesOf k)) core
  let final := if g.anyIneligible then 0 else notZero (hasher.final_ core)
  members.foldl (fun hashes m => Function.update hashes m final) hashes

/-- One component. -/
def finish (hashes : Fin n → UInt64) (members : List (Fin n)) : Fin n → UInt64 :=
  match members with
  | [] => hashes
  | [m] => singleton hasher store hashes m
  | _ => several hasher store hashes members

def sccPass (fuel : Nat) (hashes : Fin n → UInt64) : Option (Fin n → UInt64) :=
  Tarjan.run store.succ (finish hasher store) fuel (List.finRange n) hashes

/-! ### Ineligible dependencies -/

/-- An entry with an ineligible dependency becomes ineligible. The flag says whether any
did. -/
def close (result : (Fin n → UInt64) × Bool) (e : Fin n) : (Fin n → UInt64) × Bool :=
  if result.1 e = 0 then result
  else if (store.dependencies e).any fun dep => result.1 dep.entryId == 0 then
    (Function.update result.1 e 0, true)
  else result

/-- Until nothing changes. -/
def sweep (hashes : Fin n → UInt64) : Option (Fin n → UInt64) :=
  let (after, changed) := (List.finRange n).foldl (close store) (hashes, false)
  if changed then some after else none

/-- `entry_hash` of all entries. -/
def entryHashes (fuel : Nat) : Option (Fin n → UInt64) := do
  let d ← dfsPass hasher store fuel
  let hashes ← sccPass hasher store fuel d.entryHashes
  loop (sweep store) fuel hashes

end Bunx.IsolatedInstall
