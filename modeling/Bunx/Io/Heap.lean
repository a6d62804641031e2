/-
Module: Bunx.Io.Heap
Purpose: The intrusive pairing heap: links inside the nodes, and the operations on them.
Trusted boundary: `less` does not change while nodes are in the heap.
Main exports:
  IntrusiveField, Links, Intrusive, meld, combineSiblings, Intrusive.insert,
  Intrusive.deleteMin, Intrusive.remove
-/
import Mathlib.Logic.Function.Basic

namespace Bunx.Io

/-- The links of a node; `none` is the null pointer. -/
structure IntrusiveField (α : Type) where
  child : Option α
  prev : Option α
  next : Option α
deriving DecidableEq, Repr

/-- `IntrusiveField::default()`. -/
def IntrusiveField.cleared {α : Type} : IntrusiveField α := ⟨none, none, none⟩

/-- The links of all nodes. -/
abbrev Links (α : Type) := α → IntrusiveField α

variable {α : Type} [DecidableEq α]

namespace Links

def setChild (σ : Links α) (x : α) (p : Option α) : Links α :=
  Function.update σ x { σ x with child := p }

def setPrev (σ : Links α) (x : α) (p : Option α) : Links α :=
  Function.update σ x { σ x with prev := p }

def setNext (σ : Links α) (x : α) (p : Option α) : Links α :=
  Function.update σ x { σ x with next := p }

end Links

/-- Union of two heaps; it is assumed that `a` has no sibling. -/
def meld (less : α → α → Bool) (σ : Links α) (a b : α) : α × Links α :=
  if less a b then
    let σ := σ.setPrev b (some a)
    -- B's siblings become A's.
    let σ := match (σ b).next with
      | none => σ
      | some bNext =>
          ((σ.setNext a (some bNext)).setPrev bNext (some a)).setNext b none
    -- A's child becomes B's sibling.
    let σ := match (σ a).child with
      | none => σ
      | some aChild => (σ.setNext b (some aChild)).setPrev aChild (some b)
    (a, σ.setChild a (some b))
  else
    let σ := (σ.setPrev b (σ a).prev).setPrev a (some b)
    let σ := match (σ b).child with
      | none => σ
      | some bChild => (σ.setNext a (some bChild)).setPrev bChild (some a)
    (b, σ.setChild b (some a))

/-- "Merge pairs right"; `fuel` bounds the turns. -/
def mergeRight (less : α → α → Bool) : Nat → Links α → α → Option (α × Links α)
  | 0, _, _ => none
  | fuel + 1, σ, a =>
      match (σ a).next with
      | none => some (a, σ)
      | some b =>
          let (b, σ) := meld less (σ.setNext a none) a b
          match (σ b).next with
          | none => some (b, σ)
          | some nextA => mergeRight less fuel σ nextA

/-- "Merge pairs left"; `fuel` bounds the turns. -/
def mergeLeft (less : α → α → Bool) : Nat → Links α → α → Option (α × Links α)
  | 0, _, _ => none
  | fuel + 1, σ, root =>
      match (σ root).prev with
      | none => some (root, σ)
      | some b =>
          let (root, σ) := meld less (σ.setNext b none) b root
          mergeLeft less fuel σ root

/-- Combine the siblings from the leftmost on into one tree. -/
def combineSiblings (less : α → α → Bool) (fuel : Nat) (σ : Links α) (left : α) :
    Option (α × Links α) := do
  let (root, σ) ← mergeRight less fuel (σ.setPrev left none) left
  mergeLeft less fuel σ root

/-- A heap and the links of all nodes there are. -/
structure Intrusive (α : Type) where
  root : Option α
  links : Links α

namespace Intrusive

variable (less : α → α → Bool) (fuel : Nat)

/-- A heap of no nodes, all links cleared. -/
def empty : Intrusive α := ⟨none, fun _ => .cleared⟩

def insert (h : Intrusive α) (v : α) : Intrusive α :=
  match h.root with
  | none => { h with root := some v }
  | some root =>
      let (root, links) := meld less h.links v root
      ⟨some root, links⟩

def peek (h : Intrusive α) : Option α := h.root

def deleteMin (h : Intrusive α) : Option (Option α × Intrusive α) :=
  match h.root with
  | none => some (none, h)
  | some root => do
      let (newRoot, links) ←
        match (h.links root).child with
        | none => some (none, h.links)
        | some child => do
            let (x, links) ← combineSiblings less fuel h.links child
            some (some x, links)
      return (some root, ⟨newRoot, Function.update links root .cleared⟩)

/-- Take `v` out of the sibling list it is in. -/
def unlink (σ : Links α) (v prev : α) : Links α :=
  let vNext := (σ v).next
  let σ := match vNext with
    | none => σ
    | some x => σ.setPrev x (some prev)
  let σ :=
    if (σ prev).child = some v then σ.setChild prev vNext else σ.setNext prev vNext
  (σ.setPrev v none).setNext v none

def remove (h : Intrusive α) (v : α) : Option (Intrusive α) :=
  match (h.links v).prev with
  | none => do
      let (_, h) ← h.deleteMin less fuel
      return h
  | some prev =>
      let links := unlink h.links v prev
      -- The children are merged back in.
      match (links v).child with
      | none => some { h with links := links }
      | some child => do
          let (x, links) ← combineSiblings less fuel (links.setChild v none) child
          let root ← h.root
          let (root, links) := meld less links x root
          return ⟨some root, links⟩

end Intrusive

end Bunx.Io
