/-
Module: Bunx.Lib.Tarjan
Purpose: Tarjan's algorithm with an explicit stack: the components of a finite graph, each
  handed over after those that it leads to.
Trusted boundary: none
Main exports: Frame, Tarjan, Tarjan.turn, Tarjan.run, Emission
-/
import Mathlib.Logic.Function.Basic
import Bunx.Lib.Reach
import Bunx.Lib.Run

namespace Bunx.Lib

variable {V : Type} [DecidableEq V] {σ : Type}

/-- A vertex that is being explored, and how many of its edges have been looked at. -/
structure Frame (V : Type) where
  v : V
  child : Nat

/-- The state of the algorithm; both stacks have their last element first. What is made of
the components is `out`. -/
structure Tarjan (V σ : Type) where
  index : V → Option Nat
  lowlink : V → Nat
  onStack : V → Bool
  sccStack : List V
  work : List (Frame V)
  counter : Nat
  out : σ

namespace Tarjan

/-- Nothing is visited yet. -/
def start (out : σ) : Tarjan V σ :=
  { index := fun _ => none, lowlink := fun _ => 0, onStack := fun _ => false, sccStack := []
    work := [], counter := 0, out }

/-- The vertex gets its index. -/
def visit (s : Tarjan V σ) (v : V) : Tarjan V σ :=
  { s with
    index := Function.update s.index v (some s.counter)
    lowlink := Function.update s.lowlink v s.counter
    onStack := Function.update s.onStack v true
    sccStack := v :: s.sccStack
    counter := s.counter + 1 }

/-- The number that was given to a visited vertex. -/
def num (s : Tarjan V σ) (v : V) : Nat := (s.index v).getD 0

/-- The vertex can reach one that is this far down. -/
def lower (s : Tarjan V σ) (v : V) (to_index : Nat) : Tarjan V σ :=
  { s with lowlink := Function.update s.lowlink v (min (s.lowlink v) to_index) }

/-- Look at the edges of the vertex on top that are left; stop at a vertex that is not
visited yet. The flag says whether there was one. -/
def scan (s : Tarjan V σ) (v : V) (below : List (Frame V)) :
    List V → Nat → Tarjan V σ × Bool
  | [], child => ({ s with work := ⟨v, child⟩ :: below }, false)
  | w :: more, child =>
      if s.index w = none then
        ({ s with work := ⟨w, 0⟩ :: ⟨v, child + 1⟩ :: below }, true)
      else if s.onStack w then scan (s.lower v (s.num w)) v below more (child + 1)
      else scan s v below more (child + 1)

/-- The component of `v`: what is on the stack from `v` on, `v` first. -/
def members (s : Tarjan V σ) (v : V) : List V :=
  v :: (s.sccStack.takeWhile (· ≠ v)).reverse

/-- The component of `v` leaves the stack and is handed over. -/
def close (emit : σ → List V → σ) (s : Tarjan V σ) (v : V) : Tarjan V σ :=
  { s with
    onStack := fun x => if x ∈ s.members v then false else s.onStack x
    sccStack := (s.sccStack.dropWhile (· ≠ v)).tail
    out := emit s.out (s.members v) }

/-- The vertex on top is done. -/
def pop (s : Tarjan V σ) (v : V) (below : List (Frame V)) : Tarjan V σ :=
  match below with
  | [] => { s with work := [] }
  | parent :: _ => { s.lower parent.v (s.lowlink v) with work := below }

/-- One turn of the loop. -/
def turn (succ : V → List V) (emit : σ → List V → σ) (s : Tarjan V σ) : Option (Tarjan V σ) :=
  match s.work with
  | [] => none
  | frame :: below =>
      let s := if frame.child = 0 then s.visit frame.v else s
      match s.scan frame.v below ((succ frame.v).drop frame.child) frame.child with
      | (s, true) => some s
      | (s, false) =>
          let s := if s.lowlink frame.v = s.num frame.v then s.close emit frame.v else s
          some (s.pop frame.v below)

/-- From each root that is not visited yet. -/
def run (succ : V → List V) (emit : σ → List V → σ) (fuel : Nat) (roots : List V) (out : σ) :
    Option σ := do
  let s ← roots.foldlM (fun s root =>
    if s.index root ≠ none then some s
    else loop (turn succ emit) fuel { s with work := [⟨root, 0⟩] }) (start out)
  return s.out

end Tarjan

/-! ### Components -/

/-- Components in the order in which they were handed over: each is all that its members
both lead to and are led to by, and all their edges stay inside or go to earlier ones. -/
inductive Emission (succ : V → List V) : List (List V) → Prop where
  | nil : Emission succ []
  | snoc {comps : List (List V)} {c : List V} (before : Emission succ comps)
      (nonempty : c ≠ []) (distinct : c.Nodup) (apart : ∀ x ∈ c, x ∉ comps.flatten)
      (closed : ∀ x ∈ c, ∀ z ∈ succ x, z ∈ c ∨ z ∈ comps.flatten)
      (component : ∀ x ∈ c, ∀ y, y ∈ c ↔ Reach succ x y ∧ Reach succ y x) :
      Emission succ (comps ++ [c])

end Bunx.Lib
