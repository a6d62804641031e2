/-
Module: Bunx.Io.HeapRuns
Purpose: Whatever is inserted, deleted and removed, the links form one heap-ordered
  tree of exactly the nodes that are in the heap.
Trusted boundary: none
Main exports: HeapInv, World, Step, heap_run
-/
import Bunx.Lib.Run
import Bunx.Io.HeapRep

namespace Bunx.Io

open Lib

variable {α : Type} {less lt : α → α → Bool}

/-- A tree as the only one of its siblings. -/
def alone : Option (HeapTree α) → Siblings α
  | none => .nil
  | some t => .node t.1 t.2 .nil

/-- The links form the tree, which is heap-ordered and consists of the members; the
links of every other node are cleared. -/
structure HeapInv (less : α → α → Bool) (h : Intrusive α) (tree : Option (HeapTree α))
    (members : List α) : Prop where
  root : h.root = tree.map Prod.fst
  rep : Rep h.links none (alone tree)
  ordered : ∀ t, tree = some t → t.Ordered less
  nodes : (alone tree).nodes.Perm members
  distinct : members.Nodup
  cleared : ∀ v, v ∉ members → h.links v = .cleared

namespace HeapInv

variable {h : Intrusive α} {tree : Option (HeapTree α)} {members : List α}

theorem nodup (inv : HeapInv less h tree members) : (alone tree).nodes.Nodup :=
  inv.nodes.symm.nodup inv.distinct

theorem empty : HeapInv less (Intrusive.empty : Intrusive α) none [] where
  root := rfl
  rep := trivial
  ordered := fun _ isTree => by cases isTree
  nodes := List.Perm.refl _
  distinct := List.nodup_nil
  cleared := fun _ _ => rfl

/-- Only the order of the members counts. -/
theorem congr (inv : HeapInv less h tree members)
    (same : ∀ a ∈ members, ∀ b ∈ members, less a b = lt a b) :
    HeapInv lt h tree members where
  root := inv.root
  rep := inv.rep
  ordered := by
    rintro t rfl
    have asSiblings : (alone (some t)).Ordered less := ⟨(inv.ordered t rfl).1,
      (inv.ordered t rfl).2, trivial⟩
    have ordered : (alone (some t)).Ordered lt := by
      apply asSiblings.congr
      intro a ha b hb
      exact same a (inv.nodes.subset ha) b (inv.nodes.subset hb)
    exact ⟨ordered.1, ordered.2.1⟩
  nodes := inv.nodes
  distinct := inv.distinct
  cleared := inv.cleared

/-- The root is a member that no member comes before. -/
theorem peek_least (settles : Settles less lt (· ∈ members))
    (inv : HeapInv lt h tree members) {m : α} (isPeek : h.peek = some m) :
    m ∈ members ∧ ∀ y ∈ members, ¬lt y m = true := by
  have root := inv.root
  have nodes := inv.nodes
  rw [Intrusive.peek] at isPeek
  rw [isPeek] at root
  cases tree with
  | none => cases root
  | some t =>
      cases root
      have same : (alone (some t)).nodes = t.nodes := by
        simp [alone, Siblings.nodes, HeapTree.nodes]
      rw [same] at nodes
      refine ⟨nodes.subset (List.mem_cons_self ..), ?_⟩
      intro y member
      have inTree : Settles less lt (· ∈ t.nodes) :=
        settles.mono fun a inside => nodes.subset inside
      exact (inv.ordered t rfl).least inTree y (nodes.symm.subset member)

theorem peek_none (inv : HeapInv less h tree members) :
    h.peek = none ↔ members = [] := by
  have root := inv.root
  have nodes := inv.nodes
  rw [Intrusive.peek, root]
  cases tree with
  | none =>
      have isEmpty := List.nil_perm.mp nodes
      simp [isEmpty]
  | some t =>
      constructor
      · intro isNone
        cases isNone
      · rintro rfl
        exact absurd nodes (by simp [alone, Siblings.nodes])

variable [DecidableEq α]

/-- A new node becomes part of the tree. -/
theorem insert {v : α} (settles : Settles less lt (· ∈ v :: members))
    (inv : HeapInv lt h tree members) (fresh : v ∉ members) :
    ∃ tree', HeapInv lt (h.insert less v) tree' (v :: members) := by
  have vLinks := inv.cleared v fresh
  have vRep : Rep h.links none (.node v .nil .nil) := ⟨vLinks, trivial, trivial⟩
  have distinct : (v :: members).Nodup := List.nodup_cons.mpr ⟨fresh, inv.distinct⟩
  have vOrdered : HeapTree.Ordered lt (v, .nil) := by
    refine ⟨?_, trivial⟩
    intro y member
    cases member
  have root := inv.root
  cases tree with
  | none =>
      have isEmpty : members = [] := List.nil_perm.mp inv.nodes
      subst isEmpty
      rw [Option.map_none] at root
      have inserted : h.insert less v = ⟨some v, h.links⟩ := by
        rw [Intrusive.insert, root]
      rw [inserted]
      refine ⟨some (v, .nil), rfl, vRep, ?_, List.Perm.refl _, distinct, ?_⟩
      · rintro t ⟨⟩
        exact vOrdered
      · exact fun w outside => inv.cleared w fun member => by cases member
  | some t =>
      have nodes := inv.nodes
      rw [Option.map_some] at root
      have apart : (v :: (Siblings.nil : Siblings α).nodes ++
          t.1 :: (t.2.nodes ++ (Siblings.nil : Siblings α).nodes)).Nodup :=
        (nodes.cons v).symm.nodup distinct
      obtain ⟨links, melded, rep, frame⟩ := meld_rep less vRep inv.rep apart
      have inserted : h.insert less v =
          ⟨some (HeapTree.meld less (v, .nil) t).1, links⟩ := by
        rw [Intrusive.insert, root]
        simp only [melded]
      have whole := HeapTree.nodes_meld less (v, .nil) t
      rw [inserted]
      refine ⟨some (HeapTree.meld less (v, .nil) t), rfl, rep, ?_, ?_, distinct, ?_⟩
      · rintro _ ⟨⟩
        apply (HeapTree.OrderedIn.meld settles ⟨vOrdered, ?_⟩ ⟨inv.ordered t rfl, ?_⟩).1
        · intro x inside
          rw [List.mem_singleton.mp inside]
          exact List.mem_cons_self ..
        · intro x inside
          apply List.mem_cons_of_mem
          apply nodes.subset
          simpa [alone, Siblings.nodes, HeapTree.nodes] using inside
      · apply List.Perm.trans _ (nodes.cons v)
        simpa [alone, Siblings.nodes, HeapTree.nodes] using whole
      · intro w outside
        rw [List.mem_cons, not_or] at outside
        have same := frame w (by simpa [Siblings.nodes] using outside.1)
          fun inside => outside.2 (nodes.subset inside)
        exact same.trans (inv.cleared w outside.2)

/-- The root leaves; its children become one tree. -/
theorem deleteMin (settles : Settles less lt (· ∈ members))
    (inv : HeapInv lt h tree members) {fuel : Nat} (enough : members.length ≤ fuel) :
    ∃ h' tree', h.deleteMin less fuel = some (h.peek, h') ∧
      HeapInv lt h' tree' (h.peek.elim members members.erase) := by
  have root := inv.root
  cases tree with
  | none =>
      rw [Option.map_none] at root
      refine ⟨h, none, ?_, ?_⟩
      · rw [Intrusive.deleteMin, Intrusive.peek, root]
      · rw [Intrusive.peek, root]
        exact inv
  | some t =>
      obtain ⟨r, children⟩ := t
      rw [Option.map_some] at root
      obtain ⟨links, childRep, _⟩ := inv.rep
      have distinct := inv.nodup
      have nodes := inv.nodes
      simp only [alone, Siblings.nodes, List.append_nil] at distinct nodes
      obtain ⟨rOutside, childDistinct⟩ := List.nodup_cons.mp distinct
      have rest : children.nodes.Perm (members.erase r) := by
        have erased := nodes.erase r
        rwa [List.erase_cons_head] at erased
      have cleared {σ : Links α} (frame : ∀ y, y ∉ children.nodes → σ y = h.links y) :
          ∀ w, w ∉ members.erase r → Function.update σ r .cleared w = .cleared := by
        intro w outside
        by_cases isRoot : w = r
        · rw [isRoot, Function.update_self]
        · rw [Function.update_of_ne isRoot,
            frame w fun inside => outside (rest.subset inside)]
          apply inv.cleared
          exact fun member => outside ((List.mem_erase_of_ne isRoot).mpr member)
      rw [Intrusive.deleteMin, Intrusive.peek, root]
      simp only [links, Option.elim_some]
      cases children with
      | nil =>
          refine ⟨_, none, rfl, rfl, trivial, ?_, rest, inv.distinct.erase r,
            cleared fun _ _ => rfl⟩
          intro _ isTree
          cases isTree
      | node x child next =>
          have few : (Siblings.node x child next).nodes.length ≤ fuel := by
            have count := nodes.length_eq
            rw [List.length_cons] at count
            omega
          obtain ⟨t, σ, isTree, combined, rep, frame⟩ :=
            combineSiblings_rep less childRep childDistinct few
          have same := combine_nodes isTree
          have whole : (alone (some t)).nodes.Perm (Siblings.node x child next).nodes := by
            simpa [alone, Siblings.nodes, HeapTree.nodes] using same
          refine ⟨⟨some t.1, Function.update σ r .cleared⟩, some t, ?_, rfl, ?_, ?_,
            whole.trans rest, inv.distinct.erase r, cleared frame⟩
          · simp only [Siblings.first, combined]
            rfl
          · apply rep.frame
            intro y member
            apply Function.update_of_ne
            rintro rfl
            exact rOutside (whole.subset member)
          · rintro _ ⟨⟩
            refine combine_ordered (settles.mono ?_) (inv.ordered _ rfl).2 isTree
            exact fun a inside => nodes.subset (List.mem_cons_of_mem _ inside)

/-- A node leaves; its children are merged back in. -/
theorem remove (settles : Settles less lt (· ∈ members))
    (inv : HeapInv lt h tree members) {fuel : Nat} (enough : members.length ≤ fuel)
    {v : α} (member : v ∈ members) :
    ∃ h' tree', h.remove less fuel v = some h' ∧
      HeapInv lt h' tree' (members.erase v) := by
  have root := inv.root
  cases tree with
  | none =>
      have isEmpty : members = [] := List.nil_perm.mp inv.nodes
      rw [isEmpty] at member
      cases member
  | some t =>
      obtain ⟨r, children⟩ := t
      rw [Option.map_some] at root
      have links := inv.rep.1
      by_cases isRoot : v = r
      · subst isRoot
        obtain ⟨h', tree', deleted, inv'⟩ := inv.deleteMin settles enough
        rw [Intrusive.peek, root] at inv'
        refine ⟨h', tree', ?_, inv'⟩
        rw [Intrusive.remove, links, deleted]
        rfl
      · have distinct := inv.nodup
        have nodes := inv.nodes
        have inside : v ∈ (alone (some (r, children))).nodes := nodes.symm.subset member
        have notFirst : (alone (some (r, children))).first ≠ some v := by
          intro isFirst
          cases isFirst
          exact isRoot rfl
        obtain ⟨u, prev, cutRep, here, underRep, frame⟩ :=
          unlink_rep inv.rep distinct inside notFirst
        have ordered := inv.ordered _ rfl
        have isCut : (alone (some (r, children))).cut v = alone (some (r, children.cut v)) := by
          rw [alone, Siblings.cut, if_neg (Ne.symm isRoot)]
          rfl
        have cutOrdered : HeapTree.Ordered lt (r, children.cut v) :=
          ⟨fun y below => ordered.1 y (Siblings.cut_subset below), ordered.2.cut⟩
        have underOrdered : ((alone (some (r, children))).under v).Ordered lt :=
          Siblings.Ordered.under ⟨ordered.1, ordered.2, trivial⟩
        have split := Siblings.nodes_cut inside distinct
        rw [isCut] at split cutRep
        have rest : ((((alone (some (r, children))).under v).nodes) ++
            (alone (some (r, children.cut v))).nodes).Perm (members.erase v) := by
          have erased := (split.symm.trans nodes).erase v
          rwa [List.erase_cons_head] at erased
        have apart : v ∉ ((alone (some (r, children))).under v).nodes ++
            (alone (some (r, children.cut v))).nodes :=
          (List.nodup_cons.mp (split.nodup distinct)).1
        have restDistinct := (List.nodup_cons.mp (split.nodup distinct)).2
        have outside : ∀ w, w ∉ members → Intrusive.unlink h.links v u w = .cleared := by
          intro w notMember
          rw [frame w fun inTree => notMember (nodes.subset inTree)]
          exact inv.cleared w notMember
        rw [Intrusive.remove, prev]
        simp only [here]
        revert here underRep underOrdered rest apart restDistinct
        generalize (alone (some (r, children))).under v = under
        intro here underRep underOrdered rest apart restDistinct
        cases under with
        | nil =>
            refine ⟨_, some (r, children.cut v), rfl, root, cutRep, ?_, rest,
              inv.distinct.erase v, ?_⟩
            · rintro _ ⟨⟩
              exact cutOrdered
            · intro w notMember
              by_cases isV : w = v
              · rw [isV]
                exact here
              · apply outside
                exact fun old => notMember ((List.mem_erase_of_ne isV).mpr old)
        | node x child next =>
            obtain ⟨underDistinct, cutDistinct, parts⟩ := List.nodup_append.mp restDistinct
            have notUnder : v ∉ (Siblings.node x child next).nodes := fun below =>
              apart (List.mem_append_left _ below)
            have notCut : v ∉ (alone (some (r, children.cut v))).nodes := fun left =>
              apart (List.mem_append_right _ left)
            have clearedChild {w : α} (different : w ≠ v) :
                ((Intrusive.unlink h.links v u).setChild v none) w =
                  Intrusive.unlink h.links v u w := Function.update_of_ne different ..
            have few : (Siblings.node x child next).nodes.length ≤ fuel := by
              have count := rest.length_eq
              have fewer := List.length_erase_le (a := v) (l := members)
              rw [List.length_append] at count
              omega
            have underRep' : Rep ((Intrusive.unlink h.links v u).setChild v none) (some v)
                (.node x child next) := underRep.frame fun y below => clearedChild (by
              rintro rfl
              exact notUnder below)
            obtain ⟨t, σ, isTree, combined, rep, frame'⟩ :=
              combineSiblings_rep less underRep' underDistinct few
            have same : t.nodes.Perm (Siblings.node x child next).nodes :=
              combine_nodes isTree
            have cutRep' : Rep σ none (alone (some (r, children.cut v))) :=
              cutRep.frame fun y left => by
                rw [frame' y fun below => parts y below y left rfl]
                exact clearedChild (by
                  rintro rfl
                  exact notCut left)
            have both : (t.nodes ++ (alone (some (r, children.cut v))).nodes).Perm
                (members.erase v) := (same.append_right _).trans rest
            obtain ⟨links', melded, rep', frame''⟩ := meld_rep less rep cutRep'
              (both.symm.nodup (inv.distinct.erase v))
            have whole := HeapTree.nodes_meld less t (r, children.cut v)
            refine ⟨⟨some (HeapTree.meld less t (r, children.cut v)).1, links'⟩,
              some (HeapTree.meld less t (r, children.cut v)), ?_, rfl, rep', ?_, ?_,
              inv.distinct.erase v, ?_⟩
            · simp only [Siblings.first, combined, root, Option.bind_eq_bind,
                Option.bind_some, melded]
              rfl
            · rintro _ ⟨⟩
              have members' : ∀ a, a ∈ t.nodes ++ (alone (some (r, children.cut v))).nodes →
                  a ∈ members := fun a inside => List.mem_of_mem_erase (both.subset inside)
              have treeOrdered := combine_ordered (settles.mono fun a inside =>
                members' a (List.mem_append_left _ (same.symm.subset inside))) underOrdered isTree
              apply (HeapTree.OrderedIn.meld settles ⟨treeOrdered, ?_⟩ ⟨cutOrdered, ?_⟩).1
              · exact fun a inside => members' a (List.mem_append_left _ inside)
              · intro a inside
                apply members' a
                apply List.mem_append_right
                simpa [alone, Siblings.nodes, HeapTree.nodes] using inside
            · apply List.Perm.trans _ both
              simpa [alone, Siblings.nodes, HeapTree.nodes] using whole
            · intro w notMember
              have notBoth : w ∉ t.nodes ++ (alone (some (r, children.cut v))).nodes :=
                fun either => notMember (both.subset either)
              have kept : links' w = (Intrusive.unlink h.links v u).setChild v none w := by
                rw [frame'' w (fun below => notBoth (List.mem_append_left _ below))
                    fun left => notBoth (List.mem_append_right _ left),
                  frame' w fun below => notBoth
                    (List.mem_append_left _ (same.symm.subset below))]
              by_cases isV : w = v
              · subst isV
                apply kept.trans
                rw [Links.setChild, Function.update_self, here]
                rfl
              · apply (kept.trans (clearedChild isV)).trans
                apply outside
                exact fun old => notMember ((List.mem_erase_of_ne isV).mpr old)

end HeapInv

/-! ### Runs -/

variable [DecidableEq α]

/-- A heap and the nodes that were inserted and not yet taken out. -/
structure World (α : Type) where
  heap : Intrusive α
  members : List α

/-- One call: a node that is not in the heap is inserted, the least one is deleted, or a
node of the heap is removed. -/
inductive Step (less : α → α → Bool) : World α → World α → Prop where
  | insert {heap : Intrusive α} {members : List α} {v : α} (fresh : v ∉ members) :
      Step less ⟨heap, members⟩ ⟨heap.insert less v, v :: members⟩
  | deleteMin {heap heap' : Intrusive α} {members : List α} {fuel : Nat} {x : Option α}
      (enough : members.length ≤ fuel)
      (deleted : heap.deleteMin less fuel = some (x, heap')) :
      Step less ⟨heap, members⟩ ⟨heap', x.elim members members.erase⟩
  | remove {heap heap' : Intrusive α} {members : List α} {fuel : Nat} {v : α}
      (enough : members.length ≤ fuel) (member : v ∈ members)
      (removed : heap.remove less fuel v = some heap') :
      Step less ⟨heap, members⟩ ⟨heap', members.erase v⟩

/-- A step keeps the invariant. -/
theorem Step.keeps [IsStrictWeakOrder α (fun a b => less a b = true)] {w w' : World α}
    (step : Step less w w') (inv : ∃ tree, HeapInv less w.heap tree w.members) :
    ∃ tree, HeapInv less w'.heap tree w'.members := by
  obtain ⟨tree, inv⟩ := inv
  cases step with
  | insert fresh => exact inv.insert .refl fresh
  | deleteMin enough deleted =>
      obtain ⟨h', tree', deleted', inv'⟩ := inv.deleteMin .refl enough
      rw [deleted] at deleted'
      cases deleted'
      exact ⟨tree', inv'⟩
  | remove enough member removed =>
      obtain ⟨h', tree', removed', inv'⟩ := inv.remove .refl enough member
      rw [removed] at removed'
      cases removed'
      exact ⟨tree', inv'⟩

/-- After any calls on a fresh heap the links form one heap-ordered tree of exactly the
nodes in it and all others are cleared; `peek` and `delete_min` give a least node; and
the next call returns. -/
theorem heap_run [IsStrictWeakOrder α (fun a b => less a b = true)] {w : World α}
    (run : Run (Step less) ⟨.empty, []⟩ w) :
    (∃ tree, HeapInv less w.heap tree w.members) ∧
      (w.heap.peek = none ↔ w.members = []) ∧
      (∀ m, w.heap.peek = some m → m ∈ w.members ∧ ∀ y ∈ w.members, ¬less y m = true) ∧
      ∀ fuel, w.members.length ≤ fuel →
        (∃ h, w.heap.deleteMin less fuel = some (w.heap.peek, h)) ∧
        ∀ v ∈ w.members, ∃ h, w.heap.remove less fuel v = some h := by
  have reached : ∃ tree, HeapInv less w.heap tree w.members :=
    Run.invariant (fun w => ∃ tree, HeapInv less w.heap tree w.members) run
      ⟨none, HeapInv.empty⟩ fun _ _ step => step.keeps
  obtain ⟨tree, inv⟩ := id reached
  refine ⟨reached, inv.peek_none, fun m isPeek => inv.peek_least .refl isPeek, ?_⟩
  intro fuel enough
  constructor
  · obtain ⟨h', _, deleted, _⟩ := inv.deleteMin .refl enough
    exact ⟨h', deleted⟩
  · intro v member
    obtain ⟨h', _, removed, _⟩ := inv.remove .refl enough member
    exact ⟨h', removed⟩

/-- Nodes that are numbers, by size. -/
def lessNat (a b : Nat) : Bool := decide (a < b)

instance : IsStrictWeakOrder Nat (fun a b => lessNat a b = true) where
  irrefl a := by simp [lessNat]
  trans a b c := by
    simp only [lessNat, decide_eq_true_eq]
    exact Nat.lt_trans
  incomp_trans a b c := by
    simp only [lessNat, decide_eq_true_eq]
    omega

/-- The heap after 5, 3 and 8 were inserted, and what is left when 3 is deleted. -/
def sampleHeap : Intrusive Nat :=
  ((Intrusive.empty.insert lessNat 5).insert lessNat 3).insert lessNat 8

def sampleRest : Intrusive Nat :=
  ((sampleHeap.deleteMin lessNat 3).map Prod.snd).getD .empty

theorem sampleRest_run : Run (Step lessNat) ⟨.empty, []⟩ ⟨sampleRest, [8, 5]⟩ := by
  have five : Step lessNat ⟨.empty, []⟩ ⟨Intrusive.empty.insert lessNat 5, [5]⟩ :=
    .insert (by decide)
  have three : Step lessNat ⟨Intrusive.empty.insert lessNat 5, [5]⟩
      ⟨(Intrusive.empty.insert lessNat 5).insert lessNat 3, [3, 5]⟩ := .insert (by decide)
  have eight : Step lessNat ⟨(Intrusive.empty.insert lessNat 5).insert lessNat 3, [3, 5]⟩
      ⟨sampleHeap, [8, 3, 5]⟩ := .insert (by decide)
  have deleted : sampleHeap.deleteMin lessNat 3 = some (some 3, sampleRest) := rfl
  have least : Step lessNat ⟨sampleHeap, [8, 3, 5]⟩ ⟨sampleRest, [8, 5]⟩ :=
    .deleteMin (by decide) deleted
  exact (((Relation.ReflTransGen.single five).tail three).tail eight).tail least

/-- The four statements for that run. -/
theorem heap_run_sample :
    (∃ tree, HeapInv lessNat sampleRest tree [8, 5]) ∧
      (sampleRest.peek = none ↔ [8, 5] = ([] : List Nat)) ∧
      (∀ m, sampleRest.peek = some m →
        m ∈ [8, 5] ∧ ∀ y ∈ [8, 5], ¬lessNat y m = true) ∧
      ∀ fuel, 2 ≤ fuel →
        (∃ h, sampleRest.deleteMin lessNat fuel = some (sampleRest.peek, h)) ∧
        ∀ v ∈ [8, 5], ∃ h, sampleRest.remove lessNat fuel v = some h :=
  heap_run sampleRest_run

example : sampleRest.peek = some 5 := rfl

end Bunx.Io
