/-
Module: Bunx.Lib.PairingTree
Purpose: Pairing heaps as values: trees in child/sibling form, melding, the two-pass
  combination of siblings, and taking a node out of the middle.
Trusted boundary: none
Main exports:
  Siblings, HeapTree, HeapTree.meld, combine, Siblings.cut, Siblings.under,
  HeapTree.Ordered, combine_ordered, combine_nodes
-/
import Mathlib.Data.List.Perm.Basic
import Mathlib.Order.Defs.Unbundled

namespace Bunx.Lib

/-- A list of sibling trees: the first tree's root, its children and its siblings. -/
inductive Siblings (α : Type) where
  | nil
  | node (x : α) (child next : Siblings α)

/-- One tree: a root and its children. -/
abbrev HeapTree (α : Type) := α × Siblings α

variable {α : Type}

namespace Siblings

def first : Siblings α → Option α
  | nil => none
  | node x _ _ => some x

def nodes : Siblings α → List α
  | nil => []
  | node x child next => x :: (child.nodes ++ next.nodes)

/-- The trees one after the other. -/
def trees : Siblings α → List (HeapTree α)
  | nil => []
  | node x child next => (x, child) :: next.trees

theorem mem_nodes_of_first {s : Siblings α} {x : α} (isFirst : s.first = some x) :
    x ∈ s.nodes := by
  cases s with
  | nil => cases isFirst
  | node y child next =>
      cases isFirst
      exact List.mem_cons_self ..

end Siblings

namespace HeapTree

def nodes (t : HeapTree α) : List α := t.1 :: t.2.nodes

/-- The greater root becomes the first child of the other one. -/
def meld (less : α → α → Bool) (s t : HeapTree α) : HeapTree α :=
  if less s.1 t.1 then (s.1, .node t.1 t.2 s.2) else (t.1, .node s.1 s.2 t.2)

theorem nodes_meld (less : α → α → Bool) (s t : HeapTree α) :
    (meld less s t).nodes.Perm (s.nodes ++ t.nodes) := by
  unfold meld
  split
  · have swapped : (t.nodes ++ s.2.nodes).Perm (s.2.nodes ++ t.nodes) :=
      List.perm_append_comm
    exact swapped.cons s.1
  · have swapped : (s.nodes ++ t.2.nodes).Perm (t.2.nodes ++ s.nodes) :=
      List.perm_append_comm
    have commuted : (t.nodes ++ s.nodes).Perm (s.nodes ++ t.nodes) := List.perm_append_comm
    exact (swapped.cons t.1).trans commuted

end HeapTree

/-! ### Two passes over the siblings -/

/-- The first pass melds neighbours. -/
def pairUp (less : α → α → Bool) : List (HeapTree α) → List (HeapTree α)
  | [] => []
  | [t] => [t]
  | s :: t :: more => HeapTree.meld less s t :: pairUp less more

/-- The second pass melds from the right. -/
def meldBack (less : α → α → Bool) (last : HeapTree α) (before : List (HeapTree α)) :
    HeapTree α :=
  before.foldl (fun sofar t => HeapTree.meld less t sofar) last

/-- One tree of all siblings, when there are any. -/
def combine (less : α → α → Bool) (s : Siblings α) : Option (HeapTree α) :=
  match (pairUp less s.trees).reverse with
  | [] => none
  | last :: before => some (meldBack less last before)

def nodesOf (ts : List (HeapTree α)) : List α := ts.flatMap HeapTree.nodes

theorem nodesOf_trees (s : Siblings α) : nodesOf s.trees = s.nodes := by
  induction s with
  | nil => rfl
  | node x child next _ inNext =>
      rw [Siblings.trees, nodesOf, List.flatMap_cons]
      rw [nodesOf] at inNext
      rw [inNext]
      rfl

theorem nodesOf_pairUp (less : α → α → Bool) (ts : List (HeapTree α)) :
    (nodesOf (pairUp less ts)).Perm (nodesOf ts) := by
  induction ts using pairUp.induct with
  | case1 => exact List.Perm.refl _
  | case2 t => exact List.Perm.refl _
  | case3 s t more ih =>
      have pair := HeapTree.nodes_meld less s t
      rw [pairUp, nodesOf, List.flatMap_cons]
      have whole := pair.append ih
      rw [List.append_assoc] at whole
      exact whole

theorem nodes_meldBack (less : α → α → Bool) (last : HeapTree α)
    (before : List (HeapTree α)) :
    (meldBack less last before).nodes.Perm (nodesOf (last :: before)) := by
  induction before generalizing last with
  | nil =>
      rw [meldBack, nodesOf]
      simp
  | cons t before ih =>
      have rest := ih (HeapTree.meld less t last)
      apply rest.trans
      have pair := (HeapTree.nodes_meld less t last).trans List.perm_append_comm
      have whole := pair.append_right (nodesOf before)
      simpa [nodesOf] using whole

/-- Combining loses no node and adds none. -/
theorem combine_nodes {less : α → α → Bool} {s : Siblings α} {t : HeapTree α}
    (isTree : combine less s = some t) : t.nodes.Perm s.nodes := by
  rw [combine] at isTree
  have same := (nodesOf_pairUp less s.trees)
  rw [nodesOf_trees] at same
  cases split : (pairUp less s.trees).reverse with
  | nil =>
      rw [split] at isTree
      cases isTree
  | cons last before =>
      rw [split] at isTree
      cases isTree
      apply (nodes_meldBack less last before).trans
      rw [← split]
      exact ((List.reverse_perm _).flatMap_right _).trans same

/-! ### Heap order -/

/-- No node is less than the root above it. -/
def Siblings.Ordered (less : α → α → Bool) : Siblings α → Prop
  | .nil => True
  | .node x child next =>
      (∀ y ∈ child.nodes, ¬less y x) ∧ child.Ordered less ∧ next.Ordered less

def HeapTree.Ordered (less : α → α → Bool) (t : HeapTree α) : Prop :=
  (∀ y ∈ t.2.nodes, ¬less y t.1) ∧ t.2.Ordered less

theorem Siblings.Ordered.trees {less : α → α → Bool} {s : Siblings α}
    (ordered : s.Ordered less) : ∀ t ∈ s.trees, HeapTree.Ordered less t := by
  induction s with
  | nil =>
      intro t member
      cases member
  | node x child next _ inNext =>
      obtain ⟨below, inChild, later⟩ := ordered
      intro t member
      cases member with
      | head => exact ⟨below, inChild⟩
      | tail _ inRest => exact inNext later t inRest

section Order

/-- Among the nodes of `S`, `less` puts no node before one that comes earlier in the order
`lt`; which of two goes first that are on a par it may say either way. -/
structure Settles (less lt : α → α → Bool) (S : α → Prop) : Prop where
  first : ∀ a b, S a → S b → less a b = true → ¬lt b a = true
  second : ∀ a b, S a → S b → ¬less a b = true → ¬lt a b = true
  cotrans : ∀ a b c, S a → S b → S c → lt a c = true → lt a b = true ∨ lt b c = true

/-- A strict weak order settles itself. -/
theorem Settles.refl {less : α → α → Bool} {S : α → Prop}
    [order : IsStrictWeakOrder α (fun a b => less a b = true)] : Settles less less S where
  first := by
    intro a b _ _ forth back
    have trans := order.toIsStrictOrder.toIsTrans.trans
    exact order.toIsStrictOrder.toIrrefl.irrefl a (trans _ _ _ forth back)
  second := fun _ _ _ _ notLess => notLess
  cotrans := by
    intro a b c _ _ _ isLess
    by_cases first : less a b = true
    · exact .inl first
    by_cases second : less b c = true
    · exact .inr second
    have trans := order.toIsStrictOrder.toIsTrans.trans
    exfalso
    by_cases back : less b a = true
    · exact second (trans _ _ _ back isLess)
    by_cases forth : less c b = true
    · exact first (trans _ _ _ isLess forth)
    exact (order.incomp_trans a b c ⟨first, back⟩ ⟨second, forth⟩).1 isLess

variable {less lt : α → α → Bool} {S : α → Prop}

theorem Settles.mono {S' : α → Prop} (settles : Settles less lt S)
    (inside : ∀ a, S' a → S a) : Settles less lt S' where
  first := fun a b ha hb => settles.first a b (inside a ha) (inside b hb)
  second := fun a b ha hb => settles.second a b (inside a ha) (inside b hb)
  cotrans := fun a b c ha hb hc => settles.cotrans a b c (inside a ha) (inside b hb) (inside c hc)

theorem Settles.irrefl (settles : Settles less lt S) {a : α} (inside : S a) :
    ¬lt a a = true := by
  by_cases isLess : less a a = true
  · exact settles.first a a inside inside isLess
  · exact settles.second a a inside inside isLess

/-- An ordered tree of nodes of `S`. -/
def HeapTree.OrderedIn (lt : α → α → Bool) (S : α → Prop) (t : HeapTree α) : Prop :=
  t.Ordered lt ∧ ∀ x ∈ t.nodes, S x

theorem HeapTree.OrderedIn.meld (settles : Settles less lt S) {s t : HeapTree α}
    (sOrdered : s.OrderedIn lt S) (tOrdered : t.OrderedIn lt S) :
    (HeapTree.meld less s t).OrderedIn lt S := by
  obtain ⟨⟨sBelow, sInside⟩, sIn⟩ := sOrdered
  obtain ⟨⟨tBelow, tInside⟩, tIn⟩ := tOrdered
  have sRoot := sIn s.1 (List.mem_cons_self ..)
  have tRoot := tIn t.1 (List.mem_cons_self ..)
  constructor
  · unfold HeapTree.meld
    split
    next isLess =>
      have between := settles.first _ _ sRoot tRoot isLess
      refine ⟨?_, tBelow, tInside, sInside⟩
      intro y member
      simp only [Siblings.nodes, List.mem_cons, List.mem_append] at member
      rcases member with rfl | inT | inS
      · exact between
      · intro above
        have yIn := tIn y (List.mem_cons_of_mem _ inT)
        rcases settles.cotrans _ t.1 _ yIn tRoot sRoot above with inside | outside
        · exact tBelow y inT inside
        · exact between outside
      · exact sBelow y inS
    next notLess =>
      have between := settles.second _ _ sRoot tRoot notLess
      refine ⟨?_, sBelow, sInside, tInside⟩
      intro y member
      simp only [Siblings.nodes, List.mem_cons, List.mem_append] at member
      rcases member with rfl | inS | inT
      · exact between
      · intro above
        have yIn := sIn y (List.mem_cons_of_mem _ inS)
        rcases settles.cotrans _ s.1 _ yIn sRoot tRoot above with inside | outside
        · exact sBelow y inS inside
        · exact between outside
      · exact tBelow y inT
  · intro x member
    have either := (HeapTree.nodes_meld less s t).subset member
    rcases List.mem_append.mp either with inS | inT
    · exact sIn x inS
    · exact tIn x inT

theorem pairUp_ordered (settles : Settles less lt S) {ts : List (HeapTree α)}
    (ordered : ∀ t ∈ ts, t.OrderedIn lt S) : ∀ t ∈ pairUp less ts, t.OrderedIn lt S := by
  induction ts using pairUp.induct with
  | case1 => exact ordered
  | case2 t => exact ordered
  | case3 s t more ih =>
      intro u member
      cases member with
      | head =>
          apply HeapTree.OrderedIn.meld settles
          · exact ordered s (List.mem_cons_self ..)
          · exact ordered t (List.mem_cons_of_mem _ (List.mem_cons_self ..))
      | tail _ inRest =>
          apply ih _ u inRest
          intro v later
          exact ordered v (List.mem_cons_of_mem _ (List.mem_cons_of_mem _ later))

theorem meldBack_ordered (settles : Settles less lt S) {last : HeapTree α}
    {before : List (HeapTree α)} (isOrdered : last.OrderedIn lt S)
    (ordered : ∀ t ∈ before, t.OrderedIn lt S) :
    (meldBack less last before).OrderedIn lt S := by
  induction before generalizing last with
  | nil => exact isOrdered
  | cons t before ih =>
      apply ih
      · exact (ordered t (List.mem_cons_self ..)).meld settles isOrdered
      · exact fun u later => ordered u (List.mem_cons_of_mem _ later)

/-- Combining ordered siblings gives an ordered tree. -/
theorem combine_ordered {s : Siblings α} (settles : Settles less lt (· ∈ s.nodes))
    (ordered : s.Ordered lt) {t : HeapTree α} (isTree : combine less s = some t) :
    t.Ordered lt := by
  have each : ∀ u ∈ s.trees, u.OrderedIn lt (· ∈ s.nodes) := by
    intro u member
    refine ⟨ordered.trees u member, ?_⟩
    intro x inTree
    rw [← nodesOf_trees]
    exact List.mem_flatMap.mpr ⟨u, member, inTree⟩
  have paired := pairUp_ordered settles each
  rw [combine] at isTree
  cases split : (pairUp less s.trees).reverse with
  | nil =>
      rw [split] at isTree
      cases isTree
  | cons last before =>
      rw [split] at isTree
      cases isTree
      have each : ∀ u ∈ last :: before, u.OrderedIn lt (· ∈ s.nodes) := by
        intro u member
        rw [← split, List.mem_reverse] at member
        exact paired u member
      exact (meldBack_ordered settles (each last (List.mem_cons_self ..))
        fun u later => each u (List.mem_cons_of_mem _ later)).1

/-- The root of an ordered tree is least. -/
theorem HeapTree.Ordered.least {t : HeapTree α} (settles : Settles less lt (· ∈ t.nodes))
    (ordered : t.Ordered lt) : ∀ y ∈ t.nodes, ¬lt y t.1 = true := by
  intro y member
  cases member with
  | head => exact settles.irrefl (List.mem_cons_self ..)
  | tail _ below => exact ordered.1 y below

/-- Which order the nodes themselves are compared in is all that counts. -/
theorem Siblings.Ordered.congr {lt' : α → α → Bool} {s : Siblings α}
    (ordered : s.Ordered lt) (same : ∀ a ∈ s.nodes, ∀ b ∈ s.nodes, lt a b = lt' a b) :
    s.Ordered lt' := by
  induction s with
  | nil => exact trivial
  | node x child next inChild inNext =>
      obtain ⟨below, childOrdered, nextOrdered⟩ := ordered
      have childNodes : ∀ a ∈ child.nodes, a ∈ (Siblings.node x child next).nodes := fun a member =>
        List.mem_cons_of_mem _ (List.mem_append_left _ member)
      have nextNodes : ∀ a ∈ next.nodes, a ∈ (Siblings.node x child next).nodes := fun a member =>
        List.mem_cons_of_mem _ (List.mem_append_right _ member)
      refine ⟨?_, inChild childOrdered ?_, inNext nextOrdered ?_⟩
      · intro y member
        rw [← same y (childNodes y member) x (List.mem_cons_self ..)]
        exact below y member
      · exact fun a ha b hb => same a (childNodes a ha) b (childNodes b hb)
      · exact fun a ha b hb => same a (nextNodes a ha) b (nextNodes b hb)

end Order

/-! ### Taking a node out -/

section Cut

variable [DecidableEq α]

/-- The siblings without the node `v` and what is below it. -/
def Siblings.cut (v : α) : Siblings α → Siblings α
  | .nil => .nil
  | .node x child next =>
      if x = v then next else .node x (child.cut v) (next.cut v)

/-- The children of the node `v`. -/
def Siblings.under (v : α) : Siblings α → Siblings α
  | .nil => .nil
  | .node x child next =>
      if x = v then child
      else if v ∈ child.nodes then child.under v else next.under v

theorem Siblings.cut_of_notMem {v : α} {s : Siblings α} (outside : v ∉ s.nodes) :
    s.cut v = s := by
  induction s with
  | nil => rfl
  | node x child next inChild inNext =>
      simp only [nodes, List.mem_cons, List.mem_append, not_or] at outside
      rw [cut, if_neg (Ne.symm outside.1), inChild outside.2.1, inNext outside.2.2]

/-- The nodes are `v`, the nodes below it and the others. -/
theorem Siblings.nodes_cut {v : α} {s : Siblings α} (member : v ∈ s.nodes)
    (distinct : s.nodes.Nodup) :
    s.nodes.Perm (v :: ((s.under v).nodes ++ (s.cut v).nodes)) := by
  induction s with
  | nil => cases member
  | node x child next inChild inNext =>
      simp only [nodes, List.nodup_cons, List.mem_append, not_or, List.nodup_append] at distinct
      obtain ⟨⟨notChild, notNext⟩, childDistinct, nextDistinct, apart⟩ := distinct
      by_cases here : x = v
      · subst here
        rw [cut, if_pos rfl, under, if_pos rfl]
        exact List.Perm.refl _
      · rw [cut, if_neg here, under, if_neg here]
        by_cases inside : v ∈ child.nodes
        · have outside : v ∉ next.nodes := fun later => apart v inside v later rfl
          rw [if_pos inside, cut_of_notMem outside, nodes, nodes]
          have split := (inChild inside childDistinct).append_right next.nodes
          simp only [List.cons_append, List.append_assoc] at split
          apply (List.Perm.cons x split).trans
          apply (List.Perm.swap v x _).trans
          apply List.Perm.cons v
          exact List.perm_middle.symm
        · have later : v ∈ next.nodes := by
            simpa [nodes, Ne.symm here, inside] using member
          rw [if_neg inside, cut_of_notMem inside, nodes, nodes]
          have split := (inNext later nextDistinct).append_left child.nodes
          apply (List.Perm.cons x split).trans
          apply (List.Perm.cons x List.perm_middle).trans
          apply (List.Perm.swap v x _).trans
          apply List.Perm.cons v
          apply List.Perm.trans _ List.perm_middle.symm
          apply List.Perm.cons x
          rw [← List.append_assoc, ← List.append_assoc]
          exact List.perm_append_comm.append_right _

theorem Siblings.cut_subset {v : α} {s : Siblings α} : (s.cut v).nodes ⊆ s.nodes := by
  induction s with
  | nil => exact fun y member => member
  | node x child next inChild inNext =>
      intro y member
      rw [cut] at member
      split at member
      · exact List.mem_cons_of_mem _ (List.mem_append_right _ member)
      · simp only [nodes, List.mem_cons, List.mem_append] at member ⊢
        rcases member with here | inside | later
        · exact .inl here
        · exact .inr (.inl (inChild inside))
        · exact .inr (.inr (inNext later))

theorem Siblings.Ordered.cut {less : α → α → Bool} {v : α} {s : Siblings α}
    (ordered : s.Ordered less) : (s.cut v).Ordered less := by
  induction s with
  | nil => exact ordered
  | node x child next inChild inNext =>
      obtain ⟨below, childOrdered, nextOrdered⟩ := ordered
      rw [Siblings.cut]
      split
      · exact nextOrdered
      · exact ⟨fun y member => below y (cut_subset member), inChild childOrdered,
          inNext nextOrdered⟩

theorem Siblings.Ordered.under {less : α → α → Bool} {v : α} {s : Siblings α}
    (ordered : s.Ordered less) : (s.under v).Ordered less := by
  induction s with
  | nil => exact ordered
  | node x child next inChild inNext =>
      obtain ⟨_, childOrdered, nextOrdered⟩ := ordered
      rw [Siblings.under]
      split
      · exact childOrdered
      · split
        · exact inChild childOrdered
        · exact inNext nextOrdered

end Cut

end Bunx.Lib
