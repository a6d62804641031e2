/-
Module: Bunx.Io.HeapRep
Purpose: The links of a heap represent a pairing tree; every operation on the links is
  the operation on trees.
Trusted boundary: none
Main exports: Rep, meld_rep, combineSiblings_rep, unlink_rep
-/
import Mathlib.Tactic.Cases
import Bunx.Lib.PairingTree
import Bunx.Io.Heap

namespace Bunx.Io

open Lib

variable {α : Type}

/-- Every node links to its first child, its next sibling, and back to the sibling
before it or, from the first sibling, to `prev`. -/
def Rep (σ : Links α) : Option α → Siblings α → Prop
  | _, .nil => True
  | prev, .node x child next =>
      σ x = ⟨child.first, prev, next.first⟩ ∧ Rep σ (some x) child ∧
        Rep σ (some x) next

theorem Rep.frame {σ σ' : Links α} {s : Siblings α} {p : Option α} (rep : Rep σ p s)
    (same : ∀ y ∈ s.nodes, σ' y = σ y) : Rep σ' p s := by
  induction s generalizing p with
  | nil => trivial
  | node x child next inChild inNext =>
      obtain ⟨links, childRep, nextRep⟩ := rep
      refine ⟨?_, inChild childRep fun y member => ?_, inNext nextRep fun y member => ?_⟩
      · rw [same x (List.mem_cons_self ..), links]
      · exact same y (List.mem_cons_of_mem _ (List.mem_append_left _ member))
      · exact same y (List.mem_cons_of_mem _ (List.mem_append_right _ member))

/-- The first sibling may be made to link back elsewhere. -/
theorem Rep.reroot {σ σ' : Links α} {s : Siblings α} {p q : Option α} (rep : Rep σ p s)
    (distinct : s.nodes.Nodup)
    (first : ∀ x, s.first = some x → σ' x = { σ x with prev := q })
    (others : ∀ y ∈ s.nodes, s.first ≠ some y → σ' y = σ y) : Rep σ' q s := by
  cases s with
  | nil => trivial
  | node x child next =>
      obtain ⟨links, childRep, nextRep⟩ := rep
      have notBelow : x ∉ child.nodes ++ next.nodes := (List.nodup_cons.mp distinct).1
      have unchanged : ∀ y ∈ child.nodes ++ next.nodes, σ' y = σ y := by
        intro y member
        apply others y (List.mem_cons_of_mem _ member)
        intro isFirst
        cases isFirst
        exact notBelow member
      refine ⟨?_, childRep.frame fun y member => ?_, nextRep.frame fun y member => ?_⟩
      · rw [first x rfl, links]
      · exact unchanged y (List.mem_append_left _ member)
      · exact unchanged y (List.mem_append_right _ member)

variable [DecidableEq α] {less : α → α → Bool}

/-! ### Melding -/

/-- The links after melding where `a` stays above `b`. -/
theorem meld_of_less {σ : Links α} {a b : α} {aChild bChild bNext p q : Option α}
    (isLess : less a b = true) (aLinks : σ a = ⟨aChild, p, none⟩)
    (bLinks : σ b = ⟨bChild, q, bNext⟩) (different : a ≠ b)
    (notA : aChild ≠ some a ∧ bNext ≠ some a) (notB : aChild ≠ some b ∧ bNext ≠ some b)
    (apart : ∀ x, aChild = some x → bNext ≠ some x) :
    meld less σ a b = (a, fun y =>
      if y = a then ⟨some b, p, bNext⟩
      else if y = b then ⟨bChild, some a, aChild⟩
      else if aChild = some y then { σ y with prev := some b }
      else if bNext = some y then { σ y with prev := some a }
      else σ y) := by
  unfold meld
  rw [if_pos isLess]
  cases aChild with
  | none =>
      cases bNext with
      | none =>
          simp [Links.setPrev, Links.setChild, aLinks, bLinks, different]
          funext y
          grind
      | some n =>
          have notNA : n ≠ a := by simpa using notA.2
          have notNB : n ≠ b := by simpa using notB.2
          simp [Links.setPrev, Links.setChild, Links.setNext, aLinks, bLinks, different,
            different.symm, notNA, notNB, notNA.symm, notNB.symm]
          funext y
          grind
  | some c =>
      have notCA : c ≠ a := by simpa using notA.1
      have notCB : c ≠ b := by simpa using notB.1
      cases bNext with
      | none =>
          simp [Links.setPrev, Links.setChild, Links.setNext, aLinks, bLinks, different,
            notCB, notCA.symm]
          funext y
          grind
      | some n =>
          have notNA : n ≠ a := by simpa using notA.2
          have notNB : n ≠ b := by simpa using notB.2
          have notCN : c ≠ n := by simpa [eq_comm] using apart c rfl
          simp [Links.setPrev, Links.setChild, Links.setNext, aLinks, bLinks, different,
            different.symm, notNA, notNB, notNA.symm, notNB.symm, notCA, notCB, notCA.symm,
            notCN]
          funext y
          grind

/-- The links after melding where `b` takes the place of `a`. -/
theorem meld_of_not_less {σ : Links α} {a b : α} {aChild bChild bNext p q : Option α}
    (notLess : ¬less a b = true) (aLinks : σ a = ⟨aChild, p, none⟩)
    (bLinks : σ b = ⟨bChild, q, bNext⟩) (different : a ≠ b)
    (notA : bChild ≠ some a) (notB : bChild ≠ some b) :
    meld less σ a b = (b, fun y =>
      if y = b then ⟨some a, p, bNext⟩
      else if y = a then ⟨aChild, some b, bChild⟩
      else if bChild = some y then { σ y with prev := some a }
      else σ y) := by
  unfold meld
  rw [if_neg notLess]
  cases bChild with
  | none =>
      simp [Links.setPrev, Links.setChild, aLinks, bLinks, different.symm]
      funext y
      grind
  | some c =>
      have notCA : c ≠ a := by simpa using notA
      have notCB : c ≠ b := by simpa using notB
      simp [Links.setPrev, Links.setChild, Links.setNext, aLinks, bLinks, different,
        different.symm, notCA, notCB.symm]
      funext y
      grind

/-- Melding on the links is melding on trees. -/
theorem meld_rep (less : α → α → Bool) {σ : Links α} {p q : Option α} {a b : α} {aChild bChild bNext : Siblings α}
    (aRep : Rep σ p (.node a aChild .nil)) (bRep : Rep σ q (.node b bChild bNext))
    (distinct : (a :: aChild.nodes ++ b :: (bChild.nodes ++ bNext.nodes)).Nodup) :
    ∃ σ', meld less σ a b = ((HeapTree.meld less (a, aChild) (b, bChild)).1, σ') ∧
      Rep σ' p (.node (HeapTree.meld less (a, aChild) (b, bChild)).1
        (HeapTree.meld less (a, aChild) (b, bChild)).2 bNext) ∧
      ∀ y, y ∉ a :: aChild.nodes → y ∉ b :: (bChild.nodes ++ bNext.nodes) →
        σ' y = σ y := by
  obtain ⟨aLinks, aChildRep, _⟩ := aRep
  obtain ⟨bLinks, bChildRep, bNextRep⟩ := bRep
  simp only [List.cons_append, List.nodup_cons, List.nodup_append, List.mem_append,
    List.mem_cons, not_or] at distinct
  obtain ⟨⟨aNotChild, different, aNotBChild, aNotNext⟩, aDistinct,
    ⟨⟨bNotChild, bNotNext⟩, bDistinct, nextDistinct, bApart⟩, apart⟩ := distinct
  have firstIn {s : Siblings α} {y : α} (isFirst : s.first = some y) : y ∈ s.nodes :=
    Siblings.mem_nodes_of_first isFirst
  have bNotAChild : b ∉ aChild.nodes := fun member => apart b member b (.inl rfl) rfl
  have childApart : ∀ y ∈ aChild.nodes, y ∉ bChild.nodes ∧ y ∉ bNext.nodes := fun y member =>
    ⟨fun other => apart y member y (.inr (.inl other)) rfl,
      fun other => apart y member y (.inr (.inr other)) rfl⟩
  by_cases isLess : less a b = true
  · have melded := meld_of_less isLess aLinks bLinks different
      ⟨fun h => aNotChild (firstIn h), fun h => aNotNext (firstIn h)⟩
      ⟨fun h => bNotAChild (firstIn h), fun h => bNotNext (firstIn h)⟩
      fun x h h' => (childApart x (firstIn h)).2 (firstIn h')
    have tree : HeapTree.meld less (a, aChild) (b, bChild) =
        (a, .node b bChild aChild) := by
      rw [HeapTree.meld, if_pos isLess]
    rw [tree, melded]
    refine ⟨_, rfl, ⟨?_, ⟨?_, ?_, ?_⟩, ?_⟩, ?_⟩
    · exact if_pos rfl
    · exact (if_neg (Ne.symm different)).trans (if_pos rfl)
    · apply bChildRep.frame
      intro y member
      grind
    · apply aChildRep.reroot aDistinct
      · intro x isFirst
        have inside := firstIn isFirst
        grind
      · intro y member notFirst
        grind
    · apply bNextRep.reroot nextDistinct
      · intro x isFirst
        have inside := firstIn isFirst
        have notChild : aChild.first ≠ some x := fun h => (childApart x (firstIn h)).2 inside
        grind
      · intro y member notFirst
        have notChild : aChild.first ≠ some y := fun h => (childApart y (firstIn h)).2 member
        grind
    · intro y notA notB
      have notChild : aChild.first ≠ some y := fun h =>
        notA (List.mem_cons_of_mem _ (firstIn h))
      have notNext : bNext.first ≠ some y := fun h =>
        notB (List.mem_cons_of_mem _ (List.mem_append_right _ (firstIn h)))
      grind
  · have melded := meld_of_not_less isLess aLinks bLinks different
      (fun h => aNotBChild (firstIn h)) fun h => bNotChild (firstIn h)
    have tree : HeapTree.meld less (a, aChild) (b, bChild) =
        (b, .node a aChild bChild) := by
      rw [HeapTree.meld, if_neg isLess]
    rw [tree, melded]
    refine ⟨_, rfl, ⟨?_, ⟨?_, ?_, ?_⟩, ?_⟩, ?_⟩
    · exact if_pos rfl
    · exact (if_neg different).trans (if_pos rfl)
    · apply aChildRep.frame
      intro y member
      have notChild : bChild.first ≠ some y := fun h => (childApart y member).1 (firstIn h)
      grind
    · apply bChildRep.reroot bDistinct
      · intro x isFirst
        have inside := firstIn isFirst
        grind
      · intro y member notFirst
        grind
    · apply bNextRep.frame
      intro y member
      have notChild : bChild.first ≠ some y := fun h => bApart y (firstIn h) y member rfl
      grind
    · intro y notA notB
      have notChild : bChild.first ≠ some y := fun h =>
        notB (List.mem_cons_of_mem _ (List.mem_append_left _ (firstIn h)))
      grind

/-! ### Combining siblings -/

/-- The root of the tree that was melded last. -/
def lastRoot (before : List (HeapTree α)) : Option α := before.head?.map Prod.fst

/-- The trees the first pass has melded, the last one first: each links back to the one
before it. -/
def Back (σ : Links α) : List (HeapTree α) → Prop
  | [] => True
  | t :: before =>
      (σ t.1).child = t.2.first ∧ (σ t.1).prev = lastRoot before ∧
        Rep σ (some t.1) t.2 ∧ Back σ before

omit [DecidableEq α] in
theorem Back.frame {σ σ' : Links α} {before : List (HeapTree α)} (back : Back σ before)
    (same : ∀ y ∈ nodesOf before, σ' y = σ y) : Back σ' before := by
  induction before with
  | nil => trivial
  | cons t before ih =>
      obtain ⟨child, prev, rep, rest⟩ := back
      have here := same t.1 (List.mem_append_left _ (List.mem_cons_self ..))
      refine ⟨here ▸ child, here ▸ prev, rep.frame fun y member => ?_,
        ih rest fun y member => ?_⟩
      · exact same y (List.mem_append_left _ (List.mem_cons_of_mem _ member))
      · exact same y (List.mem_append_right _ member)

/-- Writing a node's next pointer. -/
theorem setNext_frame {σ : Links α} {x : α} {p : Option α} {y : α} (different : y ≠ x) :
    σ.setNext x p y = σ y := by
  rw [Links.setNext, Function.update_of_ne different]

theorem setNext_here (σ : Links α) (x : α) (p : Option α) :
    σ.setNext x p x = ⟨(σ x).child, (σ x).prev, p⟩ := Function.update_self ..

/-- The first pass leaves the melded pairs, linked backwards. -/
theorem mergeRight_rep (less : α → α → Bool) {fuel : Nat} {σ : Links α} {a : α}
    {child next : Siblings α} (before : List (HeapTree α)) (rep : Rep σ (lastRoot before) (.node a child next))
    (back : Back σ before)
    (distinct : (a :: (child.nodes ++ next.nodes) ++ nodesOf before).Nodup)
    (enough : next.nodes.length < fuel) :
    ∃ σ' last before', mergeRight less fuel σ a = some (last.1, σ') ∧
      (pairUp less ((a, child) :: next.trees)).reverse ++ before = last :: before' ∧
      Rep σ' (lastRoot before') (.node last.1 last.2 .nil) ∧ Back σ' before' ∧
      ∀ y, y ∉ a :: (child.nodes ++ next.nodes) → σ' y = σ y := by
  induction fuel generalizing σ a child next before with
  | zero => cases enough
  | succ fuel ih =>
      obtain ⟨links, childRep, nextRep⟩ := id rep
      rw [mergeRight, links]
      cases next with
      | nil => exact ⟨σ, (a, child), before, rfl, rfl, rep, back, fun _ _ => rfl⟩
      | node b bChild bNext =>
          have apart : a ∉ child.nodes ∧ a ∉ (Siblings.node b bChild bNext).nodes := by
            simp only [List.cons_append, List.nodup_cons, List.mem_append, not_or] at distinct
            exact distinct.1.1
          have pair : (a :: child.nodes ++ b :: (bChild.nodes ++ bNext.nodes)).Nodup := by
            rw [List.cons_append]
            exact (List.nodup_append.mp distinct).1
          have alone : Rep (σ.setNext a none) (lastRoot before) (.node a child .nil) := by
            refine ⟨?_, childRep.frame fun y member => setNext_frame ?_, trivial⟩
            · rw [setNext_here, links]
              rfl
            · rintro rfl
              exact apart.1 member
          have others : Rep (σ.setNext a none) (some a) (.node b bChild bNext) :=
            nextRep.frame fun y member => setNext_frame (by
              rintro rfl
              exact apart.2 member)
          obtain ⟨σ', melded, rep', frame⟩ := meld_rep less alone others pair
          have pairNodes := HeapTree.nodes_meld less (a, child) (b, bChild)
          revert melded rep' pairNodes
          generalize isMeld : HeapTree.meld less (a, child) (b, bChild) = m
          intro melded rep' pairNodes
          have unchanged : ∀ y ∈ nodesOf before, σ' y = σ y := by
            intro y member
            have outside : y ∉ a :: (child.nodes ++ b :: (bChild.nodes ++ bNext.nodes)) :=
              fun inside => (List.nodup_append.mp distinct).2.2 y inside y member rfl
            simp only [List.mem_cons, List.mem_append, not_or] at outside
            rw [frame y (by simp [outside]) (by simp [outside]), setNext_frame outside.1]
          have back' := back.frame unchanged
          have whole : (m.1 :: (m.2.nodes ++ bNext.nodes)).Perm
              (a :: (child.nodes ++ b :: (bChild.nodes ++ bNext.nodes))) := by
            have more := pairNodes.append_right bNext.nodes
            simpa [HeapTree.nodes] using more
          have frame' : ∀ y, y ∉ a :: (child.nodes ++ b :: (bChild.nodes ++ bNext.nodes)) →
              σ' y = σ y := by
            intro y outside
            simp only [List.mem_cons, List.mem_append, not_or] at outside
            rw [frame y (by simp [outside]) (by simp [outside]), setNext_frame outside.1]
          simp only [Siblings.first, melded]
          rw [rep'.1]
          cases bNext with
          | nil =>
              refine ⟨σ', m, before, rfl, ?_, rep', back', frame'⟩
              simp [Siblings.trees, pairUp, isMeld]
          | node c cChild cNext =>
              have moved :
                  (c :: (cChild.nodes ++ cNext.nodes) ++ nodesOf (m :: before)).Nodup := by
                apply List.Perm.nodup _ distinct
                apply (whole.append_right (nodesOf before)).symm.trans
                have swapped : (m.nodes ++ (Siblings.node c cChild cNext).nodes).Perm
                    ((Siblings.node c cChild cNext).nodes ++ m.nodes) :=
                  List.perm_append_comm
                have front := swapped.append_right (nodesOf before)
                rwa [List.append_assoc (Siblings.node c cChild cNext).nodes] at front
              obtain ⟨σ'', last, before', merged, same, lastRep, back'', frame''⟩ :=
                ih (m :: before) rep'.2.2
                  ⟨congrArg IntrusiveField.child rep'.1, congrArg IntrusiveField.prev rep'.1,
                    rep'.2.1, back'⟩ moved (by
                      simp only [Siblings.nodes, List.length_cons, List.length_append]
                        at enough ⊢
                      omega)
              refine ⟨σ'', last, before', merged, ?_, lastRep, back'', ?_⟩
              · rw [← same]
                simp [Siblings.trees, pairUp, isMeld]
              · intro y outside
                rw [frame'' y fun inside => outside (by
                  simp only [Siblings.nodes, List.mem_cons, List.mem_append] at inside ⊢
                  tauto), frame' y outside]

/-- The second pass melds them into one tree. -/
theorem mergeLeft_rep (less : α → α → Bool) {fuel : Nat} {σ : Links α} {last : HeapTree α}
    {before : List (HeapTree α)}
    (rep : Rep σ (lastRoot before) (.node last.1 last.2 .nil)) (back : Back σ before)
    (distinct : (nodesOf (last :: before)).Nodup) (enough : before.length < fuel) :
    ∃ σ', mergeLeft less fuel σ last.1 = some ((meldBack less last before).1, σ') ∧
      Rep σ' none (.node (meldBack less last before).1 (meldBack less last before).2 .nil) ∧
      ∀ y, y ∉ nodesOf (last :: before) → σ' y = σ y := by
  induction fuel generalizing σ last before with
  | zero => cases enough
  | succ fuel ih =>
      obtain ⟨links, childRep, _⟩ := id rep
      rw [mergeLeft, links]
      cases before with
      | nil => exact ⟨σ, rfl, rep, fun _ _ => rfl⟩
      | cons t before =>
          obtain ⟨tChild, tPrev, tRep, back⟩ := back
          have apart : t.1 ∉ last.nodes ∧ t.1 ∉ t.2.nodes ∧ t.1 ∉ nodesOf before := by
            simp only [nodesOf, List.flatMap_cons, HeapTree.nodes] at distinct ⊢
            grind
          have others : Rep (σ.setNext t.1 none) (some t.1) (.node last.1 last.2 .nil) :=
            rep.frame fun y member => setNext_frame (by
              rintro rfl
              exact apart.1 (by simpa [HeapTree.nodes, Siblings.nodes] using member))
          have alone : Rep (σ.setNext t.1 none) (lastRoot before) (.node t.1 t.2 .nil) := by
            refine ⟨?_, tRep.frame fun y member => setNext_frame ?_, trivial⟩
            · rw [setNext_here, tChild, tPrev]
              rfl
            · rintro rfl
              exact apart.2.1 member
          have pair : (t.1 :: t.2.nodes ++
              last.1 :: (last.2.nodes ++ (Siblings.nil : Siblings α).nodes)).Nodup := by
            simp only [nodesOf, List.flatMap_cons, HeapTree.nodes, Siblings.nodes,
              List.append_nil] at distinct ⊢
            grind
          obtain ⟨σ', melded, rep', frame⟩ := meld_rep less alone others pair
          have pairNodes := HeapTree.nodes_meld less t last
          simp only [lastRoot, List.head?_cons, Option.map_some, melded]
          have outside : ∀ y, y ∉ t.nodes → y ∉ last.nodes → σ' y = σ y := by
            intro y notT notLast
            rw [frame y notT (by simpa [HeapTree.nodes, Siblings.nodes] using notLast)]
            exact setNext_frame fun same => notT (same ▸ List.mem_cons_self ..)
          obtain ⟨_, behind, lastApart⟩ := List.nodup_append.mp distinct
          have tApart := (List.nodup_append.mp behind).2.2
          have back' : Back σ' before := back.frame fun y member =>
            outside y (fun inside => tApart y inside y member rfl)
              fun inside => lastApart y inside y (List.mem_append_right _ member) rfl
          have moved : (nodesOf (HeapTree.meld less t last :: before)).Nodup := by
            apply List.Perm.nodup _ distinct
            simp only [nodesOf, List.flatMap_cons]
            rw [← List.append_assoc]
            apply List.Perm.append_right
            exact List.perm_append_comm.trans pairNodes.symm
          obtain ⟨σ'', merged, rep'', frame''⟩ := ih rep' back' moved
            (Nat.lt_of_succ_lt_succ enough)
          refine ⟨σ'', merged, rep'', ?_⟩
          intro y notInside
          simp only [nodesOf, List.flatMap_cons, List.mem_append, not_or] at notInside
          rw [frame'' y, outside y notInside.2.1 notInside.1]
          simp only [nodesOf, List.flatMap_cons, List.mem_append, not_or]
          exact ⟨fun inside => (List.mem_append.mp (pairNodes.subset inside)).elim
            notInside.2.1 notInside.1, notInside.2.2⟩

/-- Combining on the links is combining on trees. -/
theorem combineSiblings_rep (less : α → α → Bool) {fuel : Nat} {σ : Links α}
    {p : Option α} {left : α} {child next : Siblings α} (rep : Rep σ p (.node left child next))
    (distinct : (Siblings.node left child next).nodes.Nodup)
    (enough : (Siblings.node left child next).nodes.length ≤ fuel) :
    ∃ t σ', combine less (.node left child next) = some t ∧
      combineSiblings less fuel σ left = some (t.1, σ') ∧
      Rep σ' none (.node t.1 t.2 .nil) ∧
      ∀ y, y ∉ (Siblings.node left child next).nodes → σ' y = σ y := by
  have reroot : Rep (σ.setPrev left none) none (.node left child next) := by
    apply rep.reroot distinct
    · intro x isFirst
      cases isFirst
      exact Function.update_self ..
    · intro y _ notFirst
      exact Function.update_of_ne (fun same : y = left => notFirst (same ▸ rfl)) ..
  have alone : ((Siblings.node left child next).nodes ++ nodesOf []).Nodup := by
    simpa [nodesOf] using distinct
  obtain ⟨σ', last, before, merged, same, rep', back, frame⟩ :=
    mergeRight_rep less [] reroot trivial alone
      (show next.nodes.length < fuel by
        simp only [Siblings.nodes, List.length_cons, List.length_append] at enough
        omega)
  rw [List.append_nil] at same
  have nodes : (nodesOf (last :: before)).Perm (Siblings.node left child next).nodes := by
    have paired := nodesOf_pairUp less (Siblings.node left child next).trees
    rw [nodesOf_trees] at paired
    rw [← same]
    exact ((List.reverse_perm _).flatMap_right _).trans paired
  have few : before.length < fuel := by
    have count := nodes.length_eq
    have each : before.length ≤ (nodesOf before).length := by
      clear nodes same back rep' count
      induction before with
      | nil => exact Nat.le_refl 0
      | cons t before ih =>
          simp only [nodesOf, List.flatMap_cons, HeapTree.nodes, List.length_append,
            List.length_cons] at ih ⊢
          omega
    simp only [nodesOf, List.flatMap_cons, HeapTree.nodes, List.length_append,
      List.length_cons] at count each
    omega
  obtain ⟨σ'', melded, rep'', frame'⟩ := mergeLeft_rep less rep' back
    (nodes.symm.nodup distinct) few
  refine ⟨meldBack less last before, σ'', ?_, ?_, rep'', ?_⟩
  · rw [combine, Siblings.trees, same]
  · rw [combineSiblings, merged]
    exact melded
  · intro y outside
    rw [frame' y fun inside => outside (nodes.subset inside), frame y outside]
    exact Function.update_of_ne
      (fun same : y = left => outside (same ▸ List.mem_cons_self ..)) ..

/-! ### Taking a node out -/

/-- The links after a first child was taken out. -/
theorem unlink_child {σ : Links α} {v u : α} {vChild vNext uPrev uNext : Option α}
    (vLinks : σ v = ⟨vChild, some u, vNext⟩) (uLinks : σ u = ⟨some v, uPrev, uNext⟩)
    (different : u ≠ v) (notU : vNext ≠ some u) (notV : vNext ≠ some v) :
    Intrusive.unlink σ v u = fun y =>
      if y = v then ⟨vChild, none, none⟩
      else if y = u then ⟨vNext, uPrev, uNext⟩
      else if vNext = some y then { σ y with prev := some u }
      else σ y := by
  unfold Intrusive.unlink
  cases vNext with
  | none =>
      simp [Links.setPrev, Links.setNext, Links.setChild, vLinks, uLinks, different.symm]
      funext y
      grind
  | some n =>
      have notNU : n ≠ u := by simpa using notU
      have notNV : n ≠ v := by simpa using notV
      simp [Links.setPrev, Links.setNext, Links.setChild, vLinks, uLinks, different.symm,
        notNU.symm, notNV.symm]
      funext y
      grind

/-- The links after a later sibling was taken out. -/
theorem unlink_next {σ : Links α} {v u : α} {vChild vNext uChild uPrev : Option α}
    (vLinks : σ v = ⟨vChild, some u, vNext⟩) (uLinks : σ u = ⟨uChild, uPrev, some v⟩)
    (different : u ≠ v) (notU : vNext ≠ some u) (notV : vNext ≠ some v)
    (notChild : uChild ≠ some v) :
    Intrusive.unlink σ v u = fun y =>
      if y = v then ⟨vChild, none, none⟩
      else if y = u then ⟨uChild, uPrev, vNext⟩
      else if vNext = some y then { σ y with prev := some u }
      else σ y := by
  unfold Intrusive.unlink
  cases vNext with
  | none =>
      simp [Links.setPrev, Links.setNext, vLinks, uLinks, different.symm, notChild]
      funext y
      grind
  | some n =>
      have notNU : n ≠ u := by simpa using notU
      have notNV : n ≠ v := by simpa using notV
      simp [Links.setPrev, Links.setNext, vLinks, uLinks, different.symm, notNU.symm,
        notNV.symm, notChild]
      funext y
      grind

theorem cut_first {s : Siblings α} {v : α} (notFirst : s.first ≠ some v) :
    (s.cut v).first = s.first := by
  cases s with
  | nil => rfl
  | node x child next =>
      have different : x ≠ v := fun same => notFirst (same ▸ rfl)
      rw [Siblings.cut, if_neg different]
      rfl

/-- Unlinking on the links is cutting on trees; what was below the node hangs from it
still. -/
theorem unlink_rep {σ : Links α} {p : Option α} {s : Siblings α} {v : α} (rep : Rep σ p s)
    (distinct : s.nodes.Nodup) (member : v ∈ s.nodes) (notFirst : s.first ≠ some v) :
    ∃ u, (σ v).prev = some u ∧ Rep (Intrusive.unlink σ v u) p (s.cut v) ∧
      Intrusive.unlink σ v u v = ⟨(s.under v).first, none, none⟩ ∧
      Rep (Intrusive.unlink σ v u) (some v) (s.under v) ∧
      ∀ y, y ∉ s.nodes → Intrusive.unlink σ v u y = σ y := by
  induction s generalizing p with
  | nil => cases member
  | node x child next inChild inNext =>
      obtain ⟨links, childRep, nextRep⟩ := rep
      have different : x ≠ v := fun same => notFirst (same ▸ rfl)
      simp only [Siblings.nodes, List.nodup_cons, List.mem_append, not_or,
        List.nodup_append] at distinct
      obtain ⟨⟨xNotChild, xNotNext⟩, childDistinct, nextDistinct, apart⟩ := distinct
      rw [Siblings.cut, if_neg different, Siblings.under, if_neg different]
      by_cases inside : v ∈ child.nodes
      · have outside : v ∉ next.nodes := fun later => apart v inside v later rfl
        rw [if_pos inside, Siblings.cut_of_notMem outside]
        by_cases isFirst : child.first = some v
        · cases child with
          | nil => cases isFirst
          | node w wChild wNext =>
              cases isFirst
              obtain ⟨wLinks, wChildRep, wNextRep⟩ := childRep
              simp only [Siblings.nodes, List.nodup_cons, List.mem_append, not_or,
                List.nodup_append, List.mem_cons] at childDistinct xNotChild apart
              obtain ⟨⟨vNotChild, vNotNext⟩, _, wDistinct, wApart⟩ := childDistinct
              have firstIn {y : α} (isFirst : wNext.first = some y) : y ∈ wNext.nodes :=
                Siblings.mem_nodes_of_first isFirst
              have unlinked := unlink_child wLinks links different
                (fun h => xNotChild.2.2 (firstIn h)) fun h => vNotNext (firstIn h)
              refine ⟨x, congrArg IntrusiveField.prev wLinks, ?_⟩
              rw [unlinked, Siblings.cut, if_pos rfl, Siblings.under, if_pos rfl]
              refine ⟨⟨?_, ?_, ?_⟩, if_pos rfl, ?_, ?_⟩
              · exact (if_neg different).trans (if_pos rfl)
              · apply wNextRep.reroot wDistinct
                · intro y isFirst
                  have inNext := firstIn isFirst
                  grind
                · intro y inNext notFirst
                  grind
              · apply nextRep.frame
                intro y inNext
                have notFirst : wNext.first ≠ some y := fun h =>
                  apart y (.inr (.inr (firstIn h))) y inNext rfl
                grind
              · apply wChildRep.frame
                intro y inChild
                have notFirst : wNext.first ≠ some y := fun h =>
                  wApart y inChild y (firstIn h) rfl
                grind
              · intro y notInside
                simp only [Siblings.nodes, List.mem_cons, List.mem_append, not_or] at notInside
                have notFirst : wNext.first ≠ some y := fun h =>
                  notInside.2.1.2.2 (firstIn h)
                grind
        · obtain ⟨u, prev, cutRep, here, underRep, frame⟩ :=
            inChild childRep childDistinct inside isFirst
          refine ⟨u, prev, ⟨?_, cutRep, ?_⟩, here, underRep, ?_⟩
          · rw [frame x xNotChild, links, cut_first isFirst]
          · apply nextRep.frame
            exact fun y later => frame y fun inChild => apart y inChild y later rfl
          · intro y notInside
            exact frame y fun inChild => notInside
              (List.mem_cons_of_mem _ (List.mem_append_left _ inChild))
      · have later : v ∈ next.nodes := by
          simpa [Siblings.nodes, different.symm, inside] using member
        rw [if_neg inside, Siblings.cut_of_notMem inside]
        by_cases isFirst : next.first = some v
        · cases next with
          | nil => cases isFirst
          | node w wChild wNext =>
              cases isFirst
              obtain ⟨wLinks, wChildRep, wNextRep⟩ := nextRep
              simp only [Siblings.nodes, List.nodup_cons, List.mem_append, not_or,
                List.nodup_append, List.mem_cons] at nextDistinct xNotNext apart
              obtain ⟨⟨vNotChild, vNotNext⟩, _, wDistinct, wApart⟩ := nextDistinct
              have firstIn {s : Siblings α} {y : α} (isFirst : s.first = some y) :
                  y ∈ s.nodes := Siblings.mem_nodes_of_first isFirst
              have unlinked := unlink_next wLinks links different
                (fun h => xNotNext.2.2 (firstIn h)) (fun h => vNotNext (firstIn h))
                fun h => inside (firstIn h)
              refine ⟨x, congrArg IntrusiveField.prev wLinks, ?_⟩
              rw [unlinked, Siblings.cut, if_pos rfl, Siblings.under, if_pos rfl]
              refine ⟨⟨?_, ?_, ?_⟩, if_pos rfl, ?_, ?_⟩
              · exact (if_neg different).trans (if_pos rfl)
              · apply childRep.frame
                intro y inChild
                have notFirst : wNext.first ≠ some y := fun h =>
                  apart y inChild y (.inr (.inr (firstIn h))) rfl
                grind
              · apply wNextRep.reroot wDistinct
                · intro y isFirst
                  have inNext := firstIn isFirst
                  grind
                · intro y inNext notFirst
                  grind
              · apply wChildRep.frame
                intro y inChild
                have notFirst : wNext.first ≠ some y := fun h =>
                  wApart y inChild y (firstIn h) rfl
                grind
              · intro y notInside
                simp only [Siblings.nodes, List.mem_cons, List.mem_append, not_or] at notInside
                have notFirst : wNext.first ≠ some y := fun h =>
                  notInside.2.2.2.2 (firstIn h)
                grind
        · obtain ⟨u, prev, cutRep, here, underRep, frame⟩ :=
            inNext nextRep nextDistinct later isFirst
          refine ⟨u, prev, ⟨?_, ?_, cutRep⟩, here, underRep, ?_⟩
          · rw [frame x xNotNext, links, cut_first isFirst]
          · apply childRep.frame
            exact fun y inChild => frame y fun later => apart y inChild y later rfl
          · intro y notInside
            exact frame y fun later => notInside
              (List.mem_cons_of_mem _ (List.mem_append_right _ later))

end Bunx.Io
