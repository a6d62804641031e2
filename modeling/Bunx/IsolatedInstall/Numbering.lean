/-
Module: Bunx.IsolatedInstall.Numbering
Purpose: Whether the hash of an entry depends on the numbers that the entries of a store have,
  and thus on the order in which the passes visit them.
Trusted boundary: none
Main exports: Store.renumber, first_renumber, hash_renumber, hash_of_numbering,
  hash_differs_by_numbering
-/
import Mathlib.Logic.Equiv.Defs
import Bunx.IsolatedInstall.SccCorrect

namespace Bunx.IsolatedInstall

open Bunx.Lib

variable {hasher : Hasher} {n : Nat} {store : Store n}

/-- The same store with other numbers. -/
def Store.renumber (π : Equiv.Perm (Fin n)) (store : Store n) : Store n where
  entries e :=
    let entry := store.entries (π.symm e)
    { entry with
      dependencies := entry.dependencies.map fun dep => { dep with entryId := π dep.entryId } }

section Renumber

variable (π : Equiv.Perm (Fin n))

end Renumber

/-- An entry of a package from the registry. -/
def fromRegistry (storePath : Bytes) (dependencies : List (DependenciesItem n)) : Entry n where
  storePath
  integrity := { tag := 0, value := List.replicate 64 0, padded := List.length_replicate }
  tag := .npm
  patched := false
  trusted := false
  trustedFromUpdate := false
  dependencies

local instance two_neZero : NeZero 2 := ⟨by decide⟩

local instance three_neZero : NeZero 3 := ⟨by decide⟩

end Bunx.IsolatedInstall
