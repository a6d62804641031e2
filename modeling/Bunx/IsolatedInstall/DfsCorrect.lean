/-
Module: Bunx.IsolatedInstall.DfsCorrect
Purpose: What the depth-first pass leaves: no hash for an entry is a sign of an ineligible one
  that it reaches, and an entry that is on no cycle with others has a hash that is a function
  of its dependencies' hashes.
Trusted boundary: none
Main exports: Alone, Spoiled, edge, DfsPass.Inv, DfsPass.turn_head, dfsPass_done
-/
import Mathlib.Tactic.Linarith
import Bunx.IsolatedInstall.EntryHash

namespace Bunx.IsolatedInstall

open Bunx.Lib

variable {hasher : Hasher} {n : Nat} {store : Store n}

/-- No other entry is on a cycle with this one. -/
def Alone (store : Store n) (e : Fin n) : Prop :=
  ∀ y, Reach store.succ e y → Reach store.succ y e → y = e

/-- An ineligible entry can be reached. -/
def Spoiled (store : Store n) (e : Fin n) : Prop :=
  ∃ x, Reach store.succ e x ∧ (store.entries x).eligible = false

theorem Spoiled.of_succ {e x : Fin n} (edge : x ∈ store.succ e) (spoiled : Spoiled store x) :
    Spoiled store e := by
  obtain ⟨y, reach, ineligible⟩ := spoiled
  exact ⟨y, .head edge reach, ineligible⟩

theorem mem_succ {e : Fin n} {dep : DependenciesItem n} (member : dep ∈ store.dependencies e) :
    dep.entryId ∈ store.succ e :=
  List.mem_map_of_mem member

/-- What a dependency adds to the hash of an entry that is alone: a placeholder when it is
the entry itself. -/
def edge (hashes : Fin n → UInt64) (e : Fin n) (core : hasher.Core) (dep : DependenciesItem n) :
    hasher.Core :=
  if dep.entryId = e then hasher.update core (bytesOf dep.nameHash)
  else fold hasher core dep.nameHash (hashes dep.entryId)

/-- Only the hashes of the other dependencies matter. -/
theorem foldl_edge_congr {hashes hashes' : Fin n → UInt64} {e : Fin n}
    {deps : List (DependenciesItem n)}
    (same : ∀ dep ∈ deps, dep.entryId = e ∨ hashes' dep.entryId = hashes dep.entryId)
    (core : hasher.Core) : deps.foldl (edge hashes' e) core = deps.foldl (edge hashes e) core := by
  induction deps generalizing core with
  | nil => rfl
  | cons dep more ih =>
      have first : edge hashes' e core dep = edge hashes e core dep := by
        rcases same dep (List.mem_cons_self ..) with isSelf | isSame
        · rw [edge, edge, if_pos isSelf, if_pos isSelf]
        · rw [edge, edge, isSame]
      rw [List.foldl_cons, List.foldl_cons, first]
      exact ih (fun dep member => same dep (List.mem_cons_of_mem _ member)) _

namespace DfsPass

/-- The dependencies but the entry itself are done, and their hashes are in the hasher. -/
structure Folded (store : Store n) (states : Fin n → State) (hashes : Fin n → UInt64)
    (e : Fin n) (deps : List (DependenciesItem n)) (core : hasher.Core) : Prop where
  done : ∀ dep ∈ deps, dep.entryId = e ∨ states dep.entryId = .done
  isCore : core = deps.foldl (edge hashes e) (begin hasher store entrySeed e)

theorem Folded.congr {states states' : Fin n → State} {hashes hashes' : Fin n → UInt64}
    {e : Fin n} {deps : List (DependenciesItem n)} {core : hasher.Core}
    (folded : Folded store states hashes e deps core)
    (kept : ∀ x, states x = .done → states' x = .done ∧ hashes' x = hashes x) :
    Folded store states' hashes' e deps core := by
  constructor
  · intro dep member
    rcases folded.done dep member with isSelf | isDone
    · exact .inl isSelf
    · exact .inr (kept _ isDone).1
  · rw [folded.isCore]
    apply Eq.symm
    apply foldl_edge_congr
    intro dep member
    rcases folded.done dep member with isSelf | isDone
    · exact .inl isSelf
    · exact .inr (kept _ isDone).2

def ids (d : DfsPass n hasher.Core) : List (Fin n) := d.stack.map StackFrame.id

/-- What holds whenever all entries on the stack are in progress. -/
structure Inv (store : Store n) (d : DfsPass n hasher.Core) : Prop where
  done : ∀ e, d.states e = .done → d.entryHashes e ≠ 0 ∧ (store.entries e).eligible = true ∧
    (Alone store e → ∃ core, Folded store d.states d.entryHashes e (store.dependencies e) core ∧
      d.entryHashes e = notZero (hasher.final_ core))
  ineligible : ∀ e, d.states e = .ineligible → d.entryHashes e = 0 ∧ Spoiled store e
  inProgress : ∀ e, d.states e = .inProgress ↔ e ∈ d.ids
  distinct : d.ids.Nodup
  path : d.ids.Pairwise fun upper lower => Reach store.succ lower upper
  frames : ∀ f ∈ d.stack, (store.entries f.id).eligible = true ∧
    (Alone store f.id → Folded store d.states d.entryHashes f.id
      ((store.dependencies f.id).take f.depIdx) f.hasher)

theorem notZero_ne (hash : UInt64) : notZero hash ≠ 0 := by
  rw [notZero]
  split
  · decide
  · assumption

namespace Inv

theorem start : Inv store (DfsPass.start : DfsPass n hasher.Core) where
  done := by simp [DfsPass.start]
  ineligible := by simp [DfsPass.start]
  inProgress := by simp [DfsPass.start, ids]
  distinct := List.nodup_nil
  path := List.Pairwise.nil
  frames := by simp [DfsPass.start]

variable {d : DfsPass n hasher.Core}

/-- An eligible entry is entered, from where the stack leads to it. -/
theorem enter (inv : Inv store d) {v : Fin n} (fresh : d.states v = .unvisited)
    (eligible : (store.entries v).eligible = true)
    (leads : ∀ e ∈ d.ids, Reach store.succ e v) :
    Inv store { d.setState v .inProgress with
      stack := ⟨v, 0, begin hasher store entrySeed v⟩ :: d.stack } := by
  let d' : DfsPass n hasher.Core := { d.setState v .inProgress with
    stack := ⟨v, 0, begin hasher store entrySeed v⟩ :: d.stack }
  have outside : v ∉ d.ids := by
    intro member
    have isProgress := (inv.inProgress v).mpr member
    rw [fresh] at isProgress
    cases isProgress
  have state_old {e : Fin n} (ne : e ≠ v) : d'.states e = d.states e := by
    simp [d', setState, ne]
  have state_new : d'.states v = .inProgress := by
    simp [d', setState]
  have kept (x : Fin n) (isDone : d.states x = .done) :
      d'.states x = .done ∧ d'.entryHashes x = d.entryHashes x := by
    have ne : x ≠ v := by
      rintro rfl
      rw [fresh] at isDone
      cases isDone
    exact ⟨(state_old ne).trans isDone, rfl⟩
  have isIds : d'.ids = v :: d.ids := rfl
  show Inv store d'
  constructor
  · intro e isDone
    have ne : e ≠ v := by
      rintro rfl
      rw [state_new] at isDone
      cases isDone
    rw [state_old ne] at isDone
    obtain ⟨notZero, isEligible, folds⟩ := inv.done e isDone
    refine ⟨notZero, isEligible, ?_⟩
    intro alone
    obtain ⟨core, folded, isHash⟩ := folds alone
    exact ⟨core, folded.congr kept, isHash⟩
  · intro e isIneligible
    have ne : e ≠ v := by
      rintro rfl
      rw [state_new] at isIneligible
      cases isIneligible
    rw [state_old ne] at isIneligible
    exact inv.ineligible e isIneligible
  · intro e
    rw [isIds, List.mem_cons]
    by_cases same : e = v
    · subst same
      simp [state_new]
    · rw [state_old same, inv.inProgress]
      simp [same]
  · rw [isIds, List.nodup_cons]
    exact ⟨outside, inv.distinct⟩
  · rw [isIds, List.pairwise_cons]
    exact ⟨leads, inv.path⟩
  · intro f member
    rcases List.mem_cons.mp member with rfl | older
    · exact ⟨eligible, fun _ => ⟨by simp, by simp⟩⟩
    · obtain ⟨isEligible, folds⟩ := inv.frames f older
      exact ⟨isEligible, fun alone => (folds alone).congr kept⟩

/-- An entry gets its final state, and leaves the stack if it was there. -/
theorem settle (inv : Inv store d) {v : Fin n} {below : List (StackFrame n hasher.Core)}
    (isOpen : d.states v = .unvisited ∨ d.states v = .inProgress)
    (isSublist : below.Sublist d.stack)
    (others : ∀ e, e ∈ below.map StackFrame.id ↔ e ∈ d.ids ∧ e ≠ v)
    {state : State} {hash : UInt64}
    (settled : state = .ineligible ∧ hash = 0 ∧ Spoiled store v ∨
      state = .done ∧ hash ≠ 0 ∧ (store.entries v).eligible = true ∧
        (Alone store v → ∃ core,
          Folded store d.states d.entryHashes v (store.dependencies v) core ∧
          hash = notZero (hasher.final_ core))) :
    Inv store { (d.setState v state).setHash v hash with stack := below } := by
  let d' : DfsPass n hasher.Core := { (d.setState v state).setHash v hash with stack := below }
  have old {e : Fin n} (ne : e ≠ v) :
      d'.states e = d.states e ∧ d'.entryHashes e = d.entryHashes e := by
    simp [d', setState, setHash, ne]
  have new : d'.states v = state ∧ d'.entryHashes v = hash := by
    simp [d', setState, setHash]
  have kept (x : Fin n) (isDone : d.states x = .done) :
      d'.states x = .done ∧ d'.entryHashes x = d.entryHashes x := by
    have ne : x ≠ v := by
      rintro rfl
      rw [isDone] at isOpen
      rcases isOpen with isOpen | isOpen <;> cases isOpen
    exact ⟨(old ne).1.trans isDone, (old ne).2⟩
  have idsSublist : d'.ids.Sublist d.ids := isSublist.map _
  show Inv store d'
  constructor
  · intro e isDone
    by_cases same : e = v
    · subst same
      rw [new.1] at isDone
      rw [new.2]
      rcases settled with ⟨isIneligible, _⟩ | ⟨_, notZero, isEligible, folds⟩
      · rw [isIneligible] at isDone
        cases isDone
      · refine ⟨notZero, isEligible, ?_⟩
        intro alone
        obtain ⟨core, folded, isHash⟩ := folds alone
        exact ⟨core, folded.congr kept, isHash⟩
    · rw [(old same).1] at isDone
      rw [(old same).2]
      obtain ⟨notZero, isEligible, folds⟩ := inv.done e isDone
      refine ⟨notZero, isEligible, ?_⟩
      intro alone
      obtain ⟨core, folded, isHash⟩ := folds alone
      exact ⟨core, folded.congr kept, isHash⟩
  · intro e isIneligible
    by_cases same : e = v
    · subst same
      rw [new.1] at isIneligible
      rw [new.2]
      rcases settled with ⟨_, isZero, spoiled⟩ | ⟨isDone, _⟩
      · exact ⟨isZero, spoiled⟩
      · rw [isDone] at isIneligible
        cases isIneligible
    · rw [(old same).1] at isIneligible
      rw [(old same).2]
      exact inv.ineligible e isIneligible
  · intro e
    show _ ↔ e ∈ below.map StackFrame.id
    rw [others]
    by_cases same : e = v
    · subst same
      rw [new.1]
      rcases settled with ⟨rfl, _⟩ | ⟨rfl, _⟩ <;> simp
    · rw [(old same).1, inv.inProgress]
      simp [same]
  · exact inv.distinct.sublist idsSublist
  · exact inv.path.sublist idsSublist
  · intro f member
    obtain ⟨isEligible, folds⟩ := inv.frames f (isSublist.subset member)
    exact ⟨isEligible, fun alone => (folds alone).congr kept⟩

/-- The frame on top may change. -/
theorem advance {f g : StackFrame n hasher.Core} {below : List (StackFrame n hasher.Core)}
    (inv : Inv store { d with stack := f :: below }) (same : g.id = f.id)
    (folds : Alone store f.id →
      Folded store d.states d.entryHashes f.id ((store.dependencies f.id).take g.depIdx) g.hasher) :
    Inv store { d with stack := g :: below } := by
  have sameIds : ids { d with stack := g :: below } = ids { d with stack := f :: below } := by
    rw [ids, ids, List.map_cons, List.map_cons, same]
  constructor
  · exact inv.done
  · exact inv.ineligible
  · rw [sameIds]
    exact inv.inProgress
  · rw [sameIds]
    exact inv.distinct
  · rw [sameIds]
    exact inv.path
  · intro h member
    rcases List.mem_cons.mp member with rfl | older
    · rw [same]
      exact ⟨(inv.frames f (List.mem_cons_self ..)).1, folds⟩
    · exact inv.frames h (List.mem_cons_of_mem _ older)

/-- A back edge of an entry that is alone goes to the entry itself. -/
theorem back_self {f : StackFrame n hasher.Core} {below : List (StackFrame n hasher.Core)}
    (inv : Inv store { d with stack := f :: below }) {x : Fin n} (edge : x ∈ store.succ f.id)
    (isBack : d.states x = .inProgress) (alone : Alone store f.id) : x = f.id := by
  have member := (inv.inProgress x).mp isBack
  rcases List.mem_cons.mp member with same | older
  · exact same
  · have path := List.pairwise_cons.mp inv.path
    exact alone x (.single edge) (path.1 x older)

end Inv

/-- What `scan` finds. -/
inductive Scanned (store : Store n) (d : DfsPass n hasher.Core) (id : Fin n)
    (below : List (StackFrame n hasher.Core)) :
    DfsPass n hasher.Core × Option hasher.Core → Prop where
  | all {depIdx : Nat} {core : hasher.Core}
      (folds : Alone store id →
        Folded store d.states d.entryHashes id (store.dependencies id) core) :
      Scanned store d id below ({ d with stack := ⟨id, depIdx, core⟩ :: below }, some core)
  | spoiled {depIdx : Nat} {core : hasher.Core} (isSpoiled : Spoiled store id) :
      Scanned store d id below
        ({ (d.setState id .ineligible).setHash id 0 with stack := ⟨id, depIdx, core⟩ :: below },
          some core)
  | fresh {w : Fin n} {depIdx : Nat} {core : hasher.Core} (edge : w ∈ store.succ id)
      (isFresh : d.states w = .unvisited)
      (inv : Inv store { d with stack := ⟨id, depIdx, core⟩ :: below }) :
      Scanned store d id below
        ({ d with stack := ⟨w, 0, hasher.init 0⟩ :: ⟨id, depIdx, core⟩ :: below }, none)

theorem scan_scanned {d : DfsPass n hasher.Core} {id : Fin n} {depIdx : Nat} {core : hasher.Core}
    {below : List (StackFrame n hasher.Core)}
    (inv : Inv store { d with stack := ⟨id, depIdx, core⟩ :: below }) :
    Scanned store d id below
      (d.scan id below ((store.dependencies id).drop depIdx) depIdx core) := by
  generalize isEdges : (store.dependencies id).drop depIdx = edges
  induction edges generalizing depIdx core with
  | nil =>
      apply Scanned.all
      intro alone
      have folded := (inv.frames _ (List.mem_cons_self ..)).2 alone
      rw [List.take_of_length_le (List.drop_eq_nil_iff.mp isEdges)] at folded
      exact folded
  | cons dep more ih =>
      have here : (store.dependencies id)[depIdx]? = some dep := by
        have first := congrArg List.head? isEdges
        simpa using first
      have rest : (store.dependencies id).drop (depIdx + 1) = more := by
        rw [← List.drop_drop, isEdges]
        rfl
      have isEdge : dep.entryId ∈ store.succ id := mem_succ (List.mem_of_getElem? here)
      have isProgress : d.states id = .inProgress :=
        (inv.inProgress id).mpr (List.mem_cons_self ..)
      have folds := (inv.frames _ (List.mem_cons_self ..)).2
      -- One more dependency in the hasher.
      have next {core' : hasher.Core}
          (isNext : Alone store id → (dep.entryId = id ∨ d.states dep.entryId = .done) ∧
            core' = edge d.entryHashes id core dep) :
          Inv store { d with stack := ⟨id, depIdx + 1, core'⟩ :: below } := by
        refine inv.advance rfl ?_
        intro alone
        obtain ⟨isDone, isCore⟩ := isNext alone
        obtain ⟨done, before⟩ := folds alone
        simp only [List.take_add_one, here, Option.toList_some]
        constructor
        · intro x member
          rcases List.mem_append.mp member with older | last
          · exact done x older
          · rw [List.mem_singleton] at last
            subst last
            exact isDone
        · have isBefore : core = _ := before
          rw [List.foldl_append, isCore, isBefore]
          rfl
      cases isState : d.states dep.entryId with
      | done =>
          rw [scan, isState]
          refine ih (next ?_) rest
          intro _
          have ne : dep.entryId ≠ id := by
            intro same
            rw [same, isProgress] at isState
            cases isState
          exact ⟨.inr isState, by rw [edge, if_neg ne]⟩
      | ineligible =>
          rw [scan, isState]
          exact .spoiled (Spoiled.of_succ isEdge (inv.ineligible _ isState).2)
      | inProgress =>
          rw [scan, isState]
          refine ih (next ?_) rest
          intro alone
          have isSelf := inv.back_self isEdge isState alone
          exact ⟨.inl isSelf, by rw [edge, if_pos isSelf]⟩
      | unvisited =>
          rw [scan, isState]
          exact .fresh isEdge isState inv

/-! ### Runs -/

/-- Between two turns: the entry on top is in progress, or waits to be entered. -/
inductive Head (store : Store n) (d : DfsPass n hasher.Core) : Prop where
  | idle (isStack : d.stack = []) (inv : Inv store d)
  | waiting (v : Fin n) (core : hasher.Core) (below : List (StackFrame n hasher.Core))
      (isStack : d.stack = ⟨v, 0, core⟩ :: below) (isFresh : d.states v = .unvisited)
      (leads : ∀ e ∈ below.map StackFrame.id, Reach store.succ e v)
      (inv : Inv store { d with stack := below })
  | exploring (top : StackFrame n hasher.Core) (below : List (StackFrame n hasher.Core))
      (isStack : d.stack = top :: below) (inv : Inv store d)

def unvisited (d : DfsPass n hasher.Core) : Nat :=
  (Finset.univ.filter (d.states · = .unvisited)).card

/-- Each turn makes this smaller: it visits an entry, or puts one on top to be visited, or
takes one away. -/
def measure (d : DfsPass n hasher.Core) : Nat :=
  4 * d.unvisited + d.stack.length +
    match d.stack with
    | top :: _ => if d.states top.id = .unvisited then 0 else 2
    | [] => 2

/-- No entry is forgotten. -/
def Kept (d d' : DfsPass n hasher.Core) : Prop :=
  ∀ x, d.states x ≠ .unvisited → d'.states x ≠ .unvisited

theorem unvisited_le {d d' : DfsPass n hasher.Core} (kept : Kept d d') :
    d'.unvisited ≤ d.unvisited := by
  apply Finset.card_le_card
  intro x
  simp only [Finset.mem_filter, Finset.mem_univ, true_and]
  intro isUnvisited
  by_contra visited
  exact kept x visited isUnvisited

theorem unvisited_lt {d d' : DfsPass n hasher.Core} (kept : Kept d d') {v : Fin n}
    (isFresh : d.states v = .unvisited) (visited : d'.states v ≠ .unvisited) :
    d'.unvisited < d.unvisited := by
  apply Finset.card_lt_card
  rw [Finset.ssubset_iff_of_subset]
  · exact ⟨v, by simpa using isFresh, by simpa using visited⟩
  · intro x
    simp only [Finset.mem_filter, Finset.mem_univ, true_and]
    intro isUnvisited
    by_contra notFresh
    exact kept x notFresh isUnvisited

theorem Inv.ne_unvisited {d : DfsPass n hasher.Core} (inv : Inv store d) {e : Fin n}
    (member : e ∈ d.ids) : d.states e ≠ .unvisited := by
  rw [(inv.inProgress e).mpr member]
  exact State.noConfusion

/-- After the entry on top was taken away. -/
theorem Head.of_inv {d : DfsPass n hasher.Core} (inv : Inv store d) : Head store d := by
  cases isStack : d.stack with
  | nil => exact .idle isStack inv
  | cons top below => exact .exploring top below isStack inv

theorem measure_inv {d : DfsPass n hasher.Core} (inv : Inv store d) :
    d.measure = 4 * d.unvisited + d.stack.length + 2 := by
  rw [measure]
  split
  · next top below isStack =>
      have member : top.id ∈ d.ids := by
        rw [ids, isStack]
        exact List.mem_cons_self ..
      rw [if_neg (inv.ne_unvisited member)]
  · rfl

theorem kept_setState {d : DfsPass n hasher.Core} {v : Fin n} {state : State}
    (ne : state ≠ .unvisited) : Kept d (d.setState v state) := by
  intro x visited
  show Function.update d.states v state x ≠ .unvisited
  by_cases same : x = v
  · rw [same, Function.update_self]
    exact ne
  · rw [Function.update_of_ne same]
    exact visited

/-- What a turn does with the entry on top. -/
theorem explored {d : DfsPass n hasher.Core} {top : StackFrame n hasher.Core}
    {below : List (StackFrame n hasher.Core)} (inv : Inv store { d with stack := top :: below }) :
    Head store (d.explore store top below) ∧ Kept d (d.explore store top below) ∧
      (d.explore store top below).measure ≤ 4 * d.unvisited + below.length + 2 := by
  have isProgress : d.states top.id = .inProgress :=
    (inv.inProgress top.id).mpr (List.mem_cons_self ..)
  have sublist : below.Sublist (top :: below) := List.sublist_cons_self ..
  have others (e : Fin n) : e ∈ below.map StackFrame.id ↔
      e ∈ ids { d with stack := top :: below } ∧ e ≠ top.id := by
    have distinct := List.nodup_cons.mp inv.distinct
    rw [ids, List.map_cons, List.mem_cons]
    constructor
    · intro member
      refine ⟨.inr member, ?_⟩
      rintro rfl
      exact distinct.1 member
    · rintro ⟨same | member, ne⟩
      · exact absurd same ne
      · exact member
  -- The entry on top gets its final state.
  have settled {d' : DfsPass n hasher.Core} (inv' : Inv store d') (isStack : d'.stack = below)
      (visited : Kept d d') : Head store d' ∧ Kept d d' ∧
        d'.measure ≤ 4 * d.unvisited + below.length + 2 := by
    refine ⟨Head.of_inv inv', visited, ?_⟩
    rw [measure_inv inv', isStack]
    have := unvisited_le visited
    omega
  have scanned := scan_scanned inv
  rw [explore, if_neg (by rw [isProgress]; exact State.noConfusion)]
  generalize d.scan top.id below ((store.dependencies top.id).drop top.depIdx) top.depIdx
    top.hasher = result at scanned ⊢
  cases scanned with
  | @all depIdx core folds =>
      have inv' : Inv store { (d.setState top.id .done).setHash top.id
          (notZero (hasher.final_ core)) with stack := below } :=
        inv.settle (.inr isProgress) sublist others (.inr ⟨rfl, notZero_ne _,
          (inv.frames top (List.mem_cons_self ..)).1, fun alone => ⟨core, folds alone, rfl⟩⟩)
      simp only [isProgress, ne_eq, reduceCtorEq, not_false_eq_true, if_true]
      exact settled inv' rfl (kept_setState State.noConfusion)
  | @spoiled depIdx core isSpoiled =>
      have inv' : Inv store
          { (d.setState top.id .ineligible).setHash top.id 0 with stack := below } :=
        inv.settle (.inr isProgress) sublist others (.inl ⟨rfl, rfl, isSpoiled⟩)
      have isIneligible :
          ((d.setState top.id .ineligible).setHash top.id 0).states top.id = .ineligible := by
        simp [setState, setHash]
      simp only [isIneligible, ne_eq, not_true_eq_false, if_false]
      exact settled inv' rfl (kept_setState State.noConfusion)
  | @fresh w depIdx core edge isFresh inv' =>
      refine ⟨.waiting w _ _ rfl isFresh ?_ inv', fun _ visited => visited, ?_⟩
      · intro e member
        rcases List.mem_cons.mp member with rfl | older
        · exact .single edge
        · have path := List.pairwise_cons.mp inv'.path
          exact (path.1 e older).tail edge
      · rw [measure]
        simp only [isFresh, if_true, List.length_cons]
        show 4 * d.unvisited + _ + 0 ≤ _
        omega

/-- What one turn keeps. -/
theorem turn_head {d d' : DfsPass n hasher.Core} (isTurn : d.turn store = some d')
    (head : Head store d) : Head store d' ∧ d'.measure < d.measure ∧ Kept d d' ∧
      ∀ top ∈ d.stack.head?, d'.states top.id ≠ .unvisited := by
  cases head with
  | idle isStack inv =>
      rw [turn, isStack] at isTurn
      cases isTurn
  | waiting v core below isStack isFresh leads inv =>
      have isMeasure : d.measure = 4 * d.unvisited + below.length + 1 := by
        rw [measure, isStack]
        simp only [isFresh, if_true, List.length_cons]
        omega
      have visits {d' : DfsPass n hasher.Core} (kept : Kept d d')
          (visited : d'.states v ≠ .unvisited) :
          ∀ top ∈ d.stack.head?, d'.states top.id ≠ .unvisited := by
        intro top isTop
        rw [isStack, List.head?_cons, Option.mem_some] at isTop
        subst isTop
        exact visited
      rw [turn, isStack] at isTurn
      simp only [isFresh, if_true] at isTurn
      by_cases eligible : (store.entries v).eligible = true
      · simp only [eligible, not_true_eq_false, if_false, Option.some.injEq] at isTurn
        have entered := inv.enter isFresh eligible leads
        have after := @explored hasher n store (d.setState v .inProgress)
          ⟨v, 0, begin hasher store entrySeed v⟩ below entered
        rw [isTurn] at after
        obtain ⟨head, keptAfter, le⟩ := after
        have isNow : (d.setState v .inProgress).states v ≠ .unvisited := by
          simp [setState]
        have keptFirst : Kept d (d.setState v .inProgress) := kept_setState State.noConfusion
        have kept : Kept d d' := fun x visited => keptAfter x (keptFirst x visited)
        have fewer := unvisited_lt keptFirst isFresh isNow
        refine ⟨head, ?_, kept, visits kept (keptAfter v isNow)⟩
        omega
      · simp only [eligible, not_false_eq_true, if_true, Option.some.injEq, Bool.false_eq_true]
          at isTurn
        have isIneligible : (store.entries v).eligible = false := by simpa using eligible
        have outside : v ∉ below.map StackFrame.id :=
          fun member => inv.ne_unvisited member isFresh
        have others (e : Fin n) : e ∈ below.map StackFrame.id ↔
            e ∈ ids { d with stack := below } ∧ e ≠ v := by
          constructor
          · intro member
            refine ⟨member, ?_⟩
            rintro rfl
            exact outside member
          · exact And.left
        have settled := inv.settle (.inl isFresh) (List.Sublist.refl _) others
          (.inl ⟨rfl, rfl, v, .refl, isIneligible⟩)
        have twice : (d.setState v .inProgress).setState v .ineligible =
            d.setState v .ineligible := by
          simp [setState]
        have isAfter : { (d.setState v .ineligible).setHash v 0 with stack := below } = d' := by
          rw [← isTurn, twice]
        have inv' : Inv store d' := by
          rw [← isAfter]
          exact settled
        have isStates : d'.states = (d.setState v .ineligible).states := by
          rw [← isAfter]
          rfl
        have isNow : d'.states v ≠ .unvisited := by
          rw [isStates]
          simp [setState]
        have kept : Kept d d' := by
          intro x visited
          rw [isStates]
          exact kept_setState State.noConfusion x visited
        have fewer := unvisited_lt kept isFresh isNow
        have isStack' : d'.stack = below := by
          rw [← isAfter]
        refine ⟨Head.of_inv inv', ?_, kept, visits kept isNow⟩
        rw [measure_inv inv', isStack']
        omega
  | exploring top below isStack inv =>
      have same : { d with stack := top :: below } = d := by
        rw [← isStack]
      have member : top.id ∈ d.ids := by
        rw [ids, isStack]
        exact List.mem_cons_self ..
      have visited := inv.ne_unvisited member
      have after := @explored hasher n store d top below (by rw [same]; exact inv)
      rw [turn, isStack] at isTurn
      simp only [if_neg visited, Option.some.injEq] at isTurn
      rw [isTurn] at after
      obtain ⟨head, kept, le⟩ := after
      refine ⟨head, ?_, kept, ?_⟩
      · rw [measure_inv inv, isStack, List.length_cons]
        omega
      · intro f isTop
        rw [isStack, List.head?_cons, Option.mem_some] at isTop
        subst isTop
        exact kept _ visited

/-- From one entry, everything that was met is visited at the end. -/
theorem loop_head {d : DfsPass n hasher.Core} (head : Head store d) {fuel : Nat}
    (enough : d.measure < fuel) :
    ∃ d', loop (turn store) fuel d = some d' ∧ d'.stack = [] ∧ Inv store d' ∧ Kept d d' ∧
      ∀ top ∈ d.stack.head?, d'.states top.id ≠ .unvisited := by
  obtain ⟨d', isLoop, ended, last, kept, met⟩ := loop_ends
    (fun d' => Head store d' ∧ Kept d d' ∧
      ∀ top ∈ d.stack.head?, d'.states top.id ≠ .unvisited ∨ d' = d) measure
    (fun a b isTurn before => by
      obtain ⟨head, less, kept, visits⟩ := turn_head isTurn before.1
      refine ⟨⟨head, fun x visited => kept x (before.2.1 x visited), ?_⟩, less⟩
      intro top isTop
      rcases before.2.2 top isTop with visited | isFirst
      · exact .inl (kept _ visited)
      · subst isFirst
        exact .inl (visits top isTop))
    ⟨head, fun _ visited => visited, fun _ _ => .inr rfl⟩ enough
  have isStack : d'.stack = [] := by
    cases isStack : d'.stack with
    | nil => rfl
    | cons top below =>
        rw [turn, isStack] at ended
        simp only at ended
        split at ended
        · split at ended <;> cases ended
        · cases ended
  refine ⟨d', isLoop, isStack, ?_, kept, ?_⟩
  · cases last with
    | idle _ inv => exact inv
    | waiting v core below isStack' => exact absurd isStack' (by simp [isStack])
    | exploring top below isStack' => exact absurd isStack' (by simp [isStack])
  · intro top isTop
    rcases met top isTop with visited | isFirst
    · exact visited
    · rw [← isFirst, isStack] at isTop
      cases isTop

theorem measure_root (d : DfsPass n hasher.Core) (root : StackFrame n hasher.Core)
    (isFresh : d.states root.id = .unvisited) :
    measure { d with stack := [root] } ≤ 4 * n + 1 := by
  have le : unvisited { d with stack := [root] } ≤ Fintype.card (Fin n) := Finset.card_le_univ _
  rw [Fintype.card_fin] at le
  rw [measure]
  simp only [isFresh, if_true, List.length_singleton]
  omega

theorem roots_inv (roots : List (Fin n)) {fuel : Nat} (enough : 4 * n + 1 < fuel)
    {d : DfsPass n hasher.Core} (isStack : d.stack = []) (inv : Inv store d) :
    ∃ d', roots.foldlM (fun d root =>
        if d.states root ≠ .unvisited then some d
        else loop (turn store) fuel { d with stack := [⟨root, 0, hasher.init 0⟩] }) d = some d' ∧
      d'.stack = [] ∧ Inv store d' ∧ Kept d d' ∧
      ∀ root ∈ roots, d'.states root ≠ .unvisited := by
  induction roots generalizing d with
  | nil => exact ⟨d, rfl, isStack, inv, fun _ visited => visited, by simp⟩
  | cons root more ih =>
      rw [List.foldlM_cons]
      by_cases visited : d.states root ≠ .unvisited
      · rw [if_pos visited]
        obtain ⟨d', isFold, isStack', inv', kept, all⟩ := ih isStack inv
        refine ⟨d', isFold, isStack', inv', kept, ?_⟩
        intro x member
        rcases List.mem_cons.mp member with rfl | isMore
        · exact kept x visited
        · exact all x isMore
      · have isFresh : d.states root = .unvisited := not_not.mp visited
        rw [if_neg visited]
        have same : { d with stack := [] } = d := by
          rw [← isStack]
        have head : Head store { d with stack := [⟨root, 0, hasher.init 0⟩] } :=
          .waiting root _ [] rfl isFresh (by simp) (by rw [same]; exact inv)
        have small := measure_root d ⟨root, 0, hasher.init 0⟩ isFresh
        obtain ⟨u, isLoop, isStack', inv', keptFirst, met⟩ :=
          loop_head head (small.trans_lt enough)
        obtain ⟨d', isFold, isStack'', inv'', kept, all⟩ := ih isStack' inv'
        refine ⟨d', ?_, isStack'', inv'', ?_, ?_⟩
        · rw [isLoop]
          exact isFold
        · intro x isVisited
          exact kept x (keptFirst x isVisited)
        · intro x member
          rcases List.mem_cons.mp member with rfl | isMore
          · exact kept x (met _ rfl)
          · exact all x isMore

end DfsPass

/-- What the pass leaves of an entry. -/
structure FirstHash (hasher : Hasher) (store : Store n) (hashes : Fin n → UInt64) (e : Fin n) :
    Prop where
  eligible : hashes e ≠ 0 → (store.entries e).eligible = true
  spoiled : hashes e = 0 → Spoiled store e
  alone : hashes e ≠ 0 → Alone store e →
    hashes e = notZero (hasher.final_
      ((store.dependencies e).foldl (edge hashes e) (begin hasher store entrySeed e))) ∧
    ∀ dep ∈ store.dependencies e, hashes dep.entryId ≠ 0

/-- The pass ends, and every entry has its hash. -/
theorem dfsPass_done (hasher : Hasher) (store : Store n) {fuel : Nat} (enough : 4 * n + 1 < fuel) :
    ∃ d, dfsPass hasher store fuel = some d ∧ ∀ e, FirstHash hasher store d.entryHashes e := by
  obtain ⟨d, isFold, isStack, inv, _, all⟩ :=
    @DfsPass.roots_inv hasher n store (List.finRange n) fuel enough DfsPass.start rfl
      DfsPass.Inv.start
  refine ⟨d, isFold, ?_⟩
  intro e
  have visited := all e (List.mem_finRange e)
  cases isState : d.states e with
  | unvisited => exact absurd isState visited
  | inProgress =>
      have member := (inv.inProgress e).mp isState
      rw [DfsPass.ids, isStack] at member
      cases member
  | ineligible =>
      obtain ⟨isZero, spoiled⟩ := inv.ineligible e isState
      exact ⟨fun ne => absurd isZero ne, fun _ => spoiled, fun ne => absurd isZero ne⟩
  | done =>
      obtain ⟨ne, eligible, folds⟩ := inv.done e isState
      refine ⟨fun _ => eligible, fun isZero => absurd isZero ne, ?_⟩
      intro _ alone
      obtain ⟨core, folded, isHash⟩ := folds alone
      refine ⟨by rw [isHash, folded.isCore], ?_⟩
      intro dep member
      rcases folded.done dep member with isSelf | isDone
      · rw [isSelf]
        exact ne
      · exact (inv.done _ isDone).1

end Bunx.IsolatedInstall
