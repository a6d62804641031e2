/-
Module: Bunx.Lib.TarjanCorrect
Purpose: Tarjan's algorithm ends and hands over exactly the components of the graph.
Trusted boundary: none
Main exports: Tarjan.Inv, Inv.enter, Inv.look, Inv.closed, Inv.popped, Tarjan.Head,
  turn_head, Tarjan.run_emission
-/
import Mathlib.Tactic.Linarith
import Bunx.Lib.Tarjan

namespace Bunx.Lib

variable {V : Type} {σ : Type} {succ : V → List V}

theorem Emission.succ_closed {comps : List (List V)} (emission : Emission succ comps) :
    ∀ x ∈ comps.flatten, ∀ z ∈ succ x, z ∈ comps.flatten := by
  induction emission with
  | nil => simp
  | snoc before nonempty distinct apart closed component ih =>
      intro x member z edge
      rw [List.flatten_append, List.mem_append] at member ⊢
      rcases member with earlier | here
      · exact .inl (ih x earlier z edge)
      · simp only [List.flatten_cons, List.flatten_nil, List.append_nil] at here ⊢
        rcases closed x here z edge with inside | earlier
        · exact .inr inside
        · exact .inl earlier

namespace Tarjan

variable [DecidableEq V]

/-- The vertices being explored, the last one first. -/
def path (s : Tarjan V σ) : List V := s.work.map Frame.v

/-- An edge of a vertex that was looked at. -/
def Looked (succ : V → List V) (work : List (Frame V)) (x z : V) : Prop :=
  z ∈ succ x ∧ ∀ f ∈ work, f.v = x → z ∈ (succ x).take f.child

/-- What holds whenever all vertices being explored are visited. The last four fields are
the heart of it: everything on the stack lies between two vertices being explored, one that
leads to it and one that it leads to; and the lowlink of a vertex being explored is the
index of one that it leads to, and not above any that was seen from its part of the stack. -/
structure Inv (succ : V → List V) (emit : σ → List V → σ) (out : σ) (s : Tarjan V σ) :
    Prop where
  counted : ∀ x i, s.index x = some i → i < s.counter
  injective : ∀ x y i, s.index x = some i → s.index y = some i → x = y
  onStack : ∀ x, s.onStack x = true ↔ x ∈ s.sccStack
  visited : ∀ x ∈ s.sccStack, s.index x ≠ none
  sorted : s.sccStack.Pairwise fun x y => s.num y < s.num x
  gray : ∀ v ∈ s.path, v ∈ s.sccStack
  graySorted : s.path.Pairwise fun x y => s.num y < s.num x
  resumed : ∀ f ∈ s.work.tail, f.child ≠ 0
  seen : ∀ x z, s.index x ≠ none → Looked succ s.work x z → s.index z ≠ none
  handed : ∃ comps, s.out = comps.foldl emit out ∧ Emission succ comps ∧
    ∀ x, x ∈ comps.flatten ↔ s.index x ≠ none ∧ x ∉ s.sccStack
  down : ∀ v ∈ s.path, ∀ x ∈ s.sccStack, s.num v ≤ s.num x → Reach succ v x
  up : ∀ x ∈ s.sccStack, ∃ v ∈ s.path, s.num v ≤ s.num x ∧ Reach succ x v
  lowlink : ∀ v ∈ s.path, s.lowlink v ≤ s.num v ∧
    ∃ z ∈ s.sccStack, s.num z = s.lowlink v ∧ Reach succ v z
  low : ∀ v ∈ s.path, ∀ x ∈ s.sccStack, s.num v ≤ s.num x →
    (∀ u ∈ s.path, s.num u ≤ s.num x → s.num u ≤ s.num v) →
    ∀ z, Looked succ s.work x z → z ∈ s.sccStack → s.lowlink v ≤ s.num z

theorem num_of {s : Tarjan V σ} {x : V} {i : Nat} (isIndex : s.index x = some i) :
    s.num x = i := by
  rw [num, isIndex]
  rfl

namespace Inv

variable {emit : σ → List V → σ} {out : σ} {s : Tarjan V σ}

theorem start : Inv succ emit out (Tarjan.start out : Tarjan V σ) where
  counted := by simp [Tarjan.start]
  injective := by simp [Tarjan.start]
  onStack := by simp [Tarjan.start]
  visited := by simp [Tarjan.start]
  sorted := List.Pairwise.nil
  gray := by simp [Tarjan.start, path]
  graySorted := List.Pairwise.nil
  resumed := by simp [Tarjan.start]
  seen := by simp [Tarjan.start]
  handed := ⟨[], rfl, .nil, by simp [Tarjan.start]⟩
  down := by simp [Tarjan.start]
  up := by simp [Tarjan.start]
  lowlink := by simp [Tarjan.start, path]
  low := by simp [Tarjan.start]

theorem num_lt (inv : Inv succ emit out s) {x : V} (member : x ∈ s.sccStack) :
    s.num x < s.counter := by
  obtain ⟨i, isIndex⟩ := Option.ne_none_iff_exists'.mp (inv.visited x member)
  rw [num_of isIndex]
  exact inv.counted x i isIndex

theorem num_inj (inv : Inv succ emit out s) {x y : V} (inX : x ∈ s.sccStack)
    (inY : y ∈ s.sccStack) (same : s.num x = s.num y) : x = y := by
  obtain ⟨i, isX⟩ := Option.ne_none_iff_exists'.mp (inv.visited x inX)
  obtain ⟨j, isY⟩ := Option.ne_none_iff_exists'.mp (inv.visited y inY)
  rw [num_of isX, num_of isY] at same
  exact inv.injective x y i isX (same ▸ isY)

/-- A vertex that is not visited yet is entered, from where the path leads to it. -/
theorem enter (inv : Inv succ emit out s) {w : V} (fresh : s.index w = none)
    {parents : List (Frame V)} (samePath : parents.map Frame.v = s.path)
    (resumed : ∀ f ∈ parents, f.child ≠ 0)
    (looked : ∀ x z, Looked succ parents x z → Looked succ s.work x z ∨ z = w)
    (leads : ∀ v ∈ s.path, Reach succ v w) :
    Inv succ emit out ({ s with work := ⟨w, 0⟩ :: parents }.visit w) := by
  have outside : w ∉ s.sccStack := fun member => inv.visited w member fresh
  have different {x : V} (member : x ∈ s.sccStack) : x ≠ w := by
    rintro rfl
    exact outside member
  have notPath : w ∉ s.path := fun member => outside (inv.gray w member)
  let s' := ({ s with work := ⟨w, 0⟩ :: parents } : Tarjan V σ).visit w
  have index_old {x : V} (ne : x ≠ w) : s'.index x = s.index x := by
    simp [s', visit, ne]
  have num_old {x : V} (ne : x ≠ w) : s'.num x = s.num x := by
    rw [num, index_old ne, num]
  have num_new : s'.num w = s.counter := by
    simp [s', visit, num]
  have low_old {x : V} (ne : x ≠ w) : s'.lowlink x = s.lowlink x := by
    simp [s', visit, ne]
  have low_new : s'.lowlink w = s.counter := by simp [s', visit]
  have isPath : s'.path = w :: s.path := by
    show w :: parents.map Frame.v = w :: s.path
    rw [samePath]
  have isStack : s'.sccStack = w :: s.sccStack := rfl
  have less {x : V} (member : x ∈ s.sccStack) : s'.num x < s.counter := by
    rw [num_old (different member)]
    exact inv.num_lt member
  -- Among older vertices only older edges were looked at, and those to `w`.
  have looked_old {x z : V} (ne : x ≠ w) (isLooked : Looked succ s'.work x z) :
      Looked succ s.work x z ∨ z = w := by
    apply looked x z
    exact ⟨isLooked.1, fun f member => isLooked.2 f (List.mem_cons_of_mem _ member)⟩
  have looked_new {z : V} (isLooked : Looked succ s'.work w z) : False := by
    have none := isLooked.2 ⟨w, 0⟩ (List.mem_cons_self ..) rfl
    simp at none
  show Inv succ emit out s'
  constructor
  · intro x i isIndex
    show i < s.counter + 1
    by_cases new : x = w
    · subst new
      simp only [s', visit, Function.update_self, Option.some.injEq] at isIndex
      omega
    · rw [index_old new] at isIndex
      have := inv.counted x i isIndex
      omega
  · intro x y i isX isY
    by_cases newX : x = w <;> by_cases newY : y = w
    · rw [newX, newY]
    · rw [index_old newY] at isY
      have := inv.counted y i isY
      rw [newX] at isX
      simp only [s', visit, Function.update_self, Option.some.injEq] at isX
      omega
    · rw [index_old newX] at isX
      have := inv.counted x i isX
      rw [newY] at isY
      simp only [s', visit, Function.update_self, Option.some.injEq] at isY
      omega
    · rw [index_old newX] at isX
      rw [index_old newY] at isY
      exact inv.injective x y i isX isY
  · intro x
    rw [isStack]
    by_cases new : x = w
    · subst new
      simp [s', visit]
    · simpa [s', visit, new] using inv.onStack x
  · intro x member
    by_cases new : x = w
    · subst new
      simp [s', visit]
    · rw [index_old new]
      exact inv.visited x (List.mem_of_ne_of_mem new member)
  · rw [isStack]
    apply List.Pairwise.cons
    · intro x member
      rw [num_new]
      exact less member
    · apply inv.sorted.imp_of_mem
      intro x y inX inY lt
      rwa [num_old (different inX), num_old (different inY)]
  · rw [isPath, isStack]
    intro v member
    rcases List.mem_cons.mp member with rfl | before
    · exact List.mem_cons_self ..
    · exact List.mem_cons_of_mem _ (inv.gray v before)
  · rw [isPath]
    apply List.Pairwise.cons
    · intro v member
      rw [num_new]
      exact less (inv.gray v member)
    · apply inv.graySorted.imp_of_mem
      intro x y inX inY lt
      rwa [num_old (different (inv.gray x inX)), num_old (different (inv.gray y inY))]
  · exact resumed
  · intro x z isVisited isLooked
    by_cases newZ : z = w
    · subst newZ
      simp [s', visit]
    rw [index_old newZ]
    by_cases new : x = w
    · subst new
      exact (looked_new isLooked).elim
    · rw [index_old new] at isVisited
      rcases looked_old new isLooked with before | isNew
      · exact inv.seen x z isVisited before
      · exact absurd isNew newZ
  · obtain ⟨comps, isOut, emission, exactly⟩ := inv.handed
    refine ⟨comps, isOut, emission, ?_⟩
    intro x
    rw [exactly, isStack]
    by_cases new : x = w
    · subst new
      simp [fresh]
    · rw [index_old new]
      simp [new]
  · rw [isPath, isStack]
    intro v isPath x member le
    rcases List.mem_cons.mp isPath with rfl | before
    · rcases List.mem_cons.mp member with rfl | older
      · exact .refl
      · have := less older
        rw [num_new] at le
        omega
    · rcases List.mem_cons.mp member with rfl | older
      · exact leads v before
      · rw [num_old (different (inv.gray v before)), num_old (different older)] at le
        exact inv.down v before x older le
  · rw [isPath, isStack]
    intro x member
    rcases List.mem_cons.mp member with rfl | older
    · exact ⟨x, List.mem_cons_self .., Nat.le_refl _, .refl⟩
    · obtain ⟨v, isPath, le, reach⟩ := inv.up x older
      refine ⟨v, List.mem_cons_of_mem _ isPath, ?_, reach⟩
      rwa [num_old (different (inv.gray v isPath)), num_old (different older)]
  · rw [isPath, isStack]
    intro v isPath
    rcases List.mem_cons.mp isPath with rfl | before
    · rw [low_new, num_new]
      exact ⟨Nat.le_refl _, v, List.mem_cons_self .., num_new, .refl⟩
    · have ne := different (inv.gray v before)
      obtain ⟨le, z, isStack, same, reach⟩ := inv.lowlink v before
      rw [low_old ne, num_old ne]
      refine ⟨le, z, List.mem_cons_of_mem _ isStack, ?_, reach⟩
      rwa [num_old (different isStack)]
  · rw [isPath, isStack]
    intro v isPath x member le last z isLooked inZ
    rcases List.mem_cons.mp member with rfl | older
    · exact (looked_new isLooked).elim
    rcases List.mem_cons.mp isPath with rfl | before
    · have := less older
      rw [num_new] at le
      omega
    have ne := different (inv.gray v before)
    have small := (inv.lowlink v before).1
    have counted := inv.num_lt (inv.gray v before)
    rw [low_old ne]
    rcases List.mem_cons.mp inZ with rfl | olderZ
    · rw [num_new]
      omega
    · rw [num_old (different olderZ)]
      rcases looked_old (different older) isLooked with isLooked | isNew
      · rw [num_old ne, num_old (different older)] at le
        apply inv.low v before x older le _ z isLooked olderZ
        intro u inPath leU
        have neU := different (inv.gray u inPath)
        have := last u (List.mem_cons_of_mem _ inPath)
        rw [num_old neU, num_old (different older), num_old ne] at this
        exact this leU
      · exact absurd isNew (different olderZ)

/-- One more edge of the vertex on top was looked at. -/
theorem looked_next {v : V} {child : Nat} {below : List (Frame V)} {z : V}
    (edge : (succ v)[child]? = some z) {x y : V}
    (isLooked : Looked succ (⟨v, child + 1⟩ :: below) x y) :
    Looked succ (⟨v, child⟩ :: below) x y ∨ x = v ∧ y = z := by
  by_cases new : x = v ∧ y = z
  · exact .inr new
  · refine .inl ⟨isLooked.1, ?_⟩
    intro f member same
    rcases List.mem_cons.mp member with rfl | older
    · have inMore := isLooked.2 ⟨v, child + 1⟩ (List.mem_cons_self ..) same
      rw [← same, List.take_add_one, edge, List.mem_append] at inMore
      rw [← same]
      rcases inMore with before | last
      · exact before
      · exact absurd ⟨same.symm, by simpa using last⟩ new
    · exact isLooked.2 f (List.mem_cons_of_mem _ older) same

/-- The vertex on top has an edge to a visited vertex. -/
theorem look (inv : Inv succ emit out s) {v : V} {child : Nat} {below : List (Frame V)}
    (isWork : s.work = ⟨v, child⟩ :: below) {z : V} (edge : (succ v)[child]? = some z)
    (visited : s.index z ≠ none) (low : Nat) (notAbove : low ≤ s.lowlink v)
    (isLow : low = s.lowlink v ∨ z ∈ s.sccStack ∧ low = s.num z)
    (isBelow : z ∈ s.sccStack → low ≤ s.num z) :
    Inv succ emit out { s with
      lowlink := Function.update s.lowlink v low, work := ⟨v, child + 1⟩ :: below } := by
  let s' : Tarjan V σ := { s with
    lowlink := Function.update s.lowlink v low, work := ⟨v, child + 1⟩ :: below }
  have samePath : s'.path = s.path := by
    rw [path, path, isWork]
    rfl
  have top : v ∈ s.path := by
    rw [path, isWork]
    exact List.mem_cons_self ..
  have isEdge : z ∈ succ v := List.mem_of_getElem? edge
  have looked_next {x y : V} (isLooked : Looked succ s'.work x y) :
      Looked succ s.work x y ∨ x = v ∧ y = z := by
    rw [isWork]
    exact Inv.looked_next edge isLooked
  have lower (u : V) : s'.lowlink u ≤ s.lowlink u := by
    show Function.update s.lowlink v low u ≤ s.lowlink u
    by_cases same : u = v
    · subst same
      simpa using notAbove
    · simp [same]
  show Inv succ emit out s'
  constructor
  · exact inv.counted
  · exact inv.injective
  · exact inv.onStack
  · exact inv.visited
  · exact inv.sorted
  · rw [samePath]
    exact inv.gray
  · rw [samePath]
    exact inv.graySorted
  · have resumed := inv.resumed
    rw [isWork] at resumed
    exact resumed
  · intro x y isVisited isLooked
    rcases looked_next isLooked with before | ⟨rfl, rfl⟩
    · exact inv.seen x y isVisited before
    · exact visited
  · exact inv.handed
  · rw [samePath]
    exact inv.down
  · rw [samePath]
    exact inv.up
  · rw [samePath]
    intro u inPath
    obtain ⟨le, y, inY, same, reach⟩ := inv.lowlink u inPath
    refine ⟨(lower u).trans le, ?_⟩
    show ∃ y ∈ s.sccStack, s.num y = Function.update s.lowlink v low u ∧ Reach succ u y
    by_cases isTop : u = v
    · subst isTop
      rw [Function.update_self]
      rcases isLow with kept | ⟨inZ, isNum⟩
      · exact ⟨y, inY, same.trans kept.symm, reach⟩
      · exact ⟨z, inZ, isNum.symm, .single isEdge⟩
    · rw [Function.update_of_ne isTop]
      exact ⟨y, inY, same, reach⟩
  · rw [samePath]
    intro u inPath x inX le last y isLooked inY
    rcases looked_next isLooked with before | ⟨rfl, rfl⟩
    · exact (lower u).trans (inv.low u inPath x inX le last y before inY)
    · -- The vertex on top is the last one of the path on its own part of the stack.
      have leTop := last x top (Nat.le_refl _)
      have same : u = x := by
        apply inv.num_inj (inv.gray u inPath) inX
        exact Nat.le_antisymm le leTop
      subst same
      show Function.update s.lowlink u low u ≤ s.num y
      rw [Function.update_self]
      exact isBelow inY

end Inv

/-- What `scan` leaves: either the state after all edges were looked at, or one in which
a new vertex is on top and can be entered. -/
structure Scanned (succ : V → List V) (emit : σ → List V → σ) (out : σ) (s s' : Tarjan V σ)
    (v : V) (below : List (Frame V)) (found : Bool) : Prop where
  index : s'.index = s.index
  done : found = false → Inv succ emit out s' ∧
    ∃ child, (succ v).length ≤ child ∧ s'.work = ⟨v, child⟩ :: below
  fresh : found = true → ∃ w child, s'.work = ⟨w, 0⟩ :: ⟨v, child + 1⟩ :: below ∧
    s'.index w = none ∧ Inv succ emit out (s'.visit w)

theorem scan_scanned {emit : σ → List V → σ} {out : σ} {s : Tarjan V σ} {v : V}
    {below : List (Frame V)} {child : Nat}
    (inv : Inv succ emit out { s with work := ⟨v, child⟩ :: below }) :
    Scanned succ emit out s (s.scan v below ((succ v).drop child) child).1 v below
      (s.scan v below ((succ v).drop child) child).2 := by
  generalize isEdges : (succ v).drop child = edges
  induction edges generalizing s child with
  | nil =>
      have isAll : (succ v).length ≤ child := List.drop_eq_nil_iff.mp isEdges
      exact ⟨rfl, fun _ => ⟨inv, child, isAll, rfl⟩, by simp [scan]⟩
  | cons w more ih =>
      have edge : (succ v)[child]? = some w := by
        have first := congrArg List.head? isEdges
        simpa using first
      have rest : (succ v).drop (child + 1) = more := by
        rw [← List.drop_drop, isEdges]
        rfl
      unfold scan
      by_cases fresh : s.index w = none
      · rw [if_pos fresh]
        refine ⟨rfl, by simp, fun _ => ⟨w, child, rfl, fresh, ?_⟩⟩
        have top : v ∈ Tarjan.path { s with work := ⟨v, child⟩ :: below } := List.mem_cons_self ..
        have samePath : (⟨v, child + 1⟩ :: below).map Frame.v =
            Tarjan.path { s with work := ⟨v, child⟩ :: below } := rfl
        apply inv.enter fresh samePath
        · intro f member
          rcases List.mem_cons.mp member with rfl | older
          · exact Nat.succ_ne_zero _
          · exact inv.resumed f older
        · intro x z isLooked
          rcases Inv.looked_next edge isLooked with before | ⟨_, isNew⟩
          · exact .inl before
          · exact .inr isNew
        · intro u inPath
          apply Relation.ReflTransGen.tail _ (List.mem_of_getElem? edge)
          apply inv.down u inPath v (inv.gray v top)
          have sorted := inv.graySorted
          rcases List.mem_cons.mp inPath with rfl | older
          · exact Nat.le_refl _
          · exact Nat.le_of_lt ((List.pairwise_cons.mp sorted).1 u older)
      · rw [if_neg fresh]
        by_cases on : s.onStack w = true
        · rw [if_pos on]
          have inStack : w ∈ s.sccStack := (inv.onStack w).mp on
          have isLow : min (s.lowlink v) (s.num w) = s.lowlink v ∨
              w ∈ s.sccStack ∧ min (s.lowlink v) (s.num w) = s.num w := by
            rcases Nat.le_total (s.lowlink v) (s.num w) with le | le
            · exact .inl (Nat.min_eq_left le)
            · exact .inr ⟨inStack, Nat.min_eq_right le⟩
          have looked := inv.look rfl edge fresh (min (s.lowlink v) (s.num w))
            (Nat.min_le_left _ _) isLow (fun _ => Nat.min_le_right _ _)
          have after := @ih (s.lower v (s.num w)) (child + 1) looked rest
          exact ⟨after.index, after.done, after.fresh⟩
        · rw [if_neg on]
          have notStack : w ∉ s.sccStack := fun member => on ((inv.onStack w).mpr member)
          have looked := inv.look rfl edge fresh (s.lowlink v) (Nat.le_refl _) (.inl rfl)
            (fun member => absurd member notStack)
          rw [Function.update_eq_self] at looked
          exact @ih s (child + 1) looked rest

/-! ### A vertex is done -/

namespace Inv

variable {emit : σ → List V → σ} {out : σ} {s : Tarjan V σ}
variable {v : V} {child : Nat} {below : List (Frame V)}

/-- The stack, cut at one of its elements. -/
theorem split_at {l : List V} (member : v ∈ l) :
    l.takeWhile (· ≠ v) ++ v :: (l.dropWhile (· ≠ v)).tail = l := by
  induction l with
  | nil => cases member
  | cons x l ih =>
      by_cases same : x = v
      · subst same
        simp
      · have later := List.mem_of_ne_of_mem (Ne.symm same) member
        simpa [List.takeWhile_cons, List.dropWhile_cons, same] using ih later

/-- The stack is sorted, so the cut is one between numbers. -/
theorem cut (inv : Inv succ emit out s) (inStack : v ∈ s.sccStack) :
    (∀ x ∈ s.sccStack.takeWhile (· ≠ v), s.num v < s.num x) ∧
    ∀ x ∈ (s.sccStack.dropWhile (· ≠ v)).tail, s.num x < s.num v := by
  have sorted := inv.sorted
  rw [← split_at inStack, List.pairwise_append, List.pairwise_cons] at sorted
  obtain ⟨_, ⟨older, _⟩, across⟩ := sorted
  exact ⟨fun x newer => across x newer v (List.mem_cons_self ..), older⟩

theorem mem_members (inv : Inv succ emit out s) (inStack : v ∈ s.sccStack) {x : V} :
    x ∈ s.members v ↔ x ∈ s.sccStack ∧ s.num v ≤ s.num x := by
  obtain ⟨newer, older⟩ := inv.cut inStack
  have parts : x ∈ s.sccStack ↔ x ∈ s.sccStack.takeWhile (· ≠ v) ∨ x = v ∨
      x ∈ (s.sccStack.dropWhile (· ≠ v)).tail := by
    conv_lhs => rw [← split_at inStack]
    rw [List.mem_append, List.mem_cons]
  rw [members, List.mem_cons, List.mem_reverse, parts]
  constructor
  · rintro (rfl | isNewer)
    · exact ⟨.inr (.inl rfl), Nat.le_refl _⟩
    · exact ⟨.inl isNewer, Nat.le_of_lt (newer x isNewer)⟩
  · rintro ⟨isNewer | rfl | isOlder, le⟩
    · exact .inr isNewer
    · exact .inl rfl
    · have := older x isOlder
      omega

theorem mem_rest (inv : Inv succ emit out s) (inStack : v ∈ s.sccStack) {x : V} :
    x ∈ (s.sccStack.dropWhile (· ≠ v)).tail ↔ x ∈ s.sccStack ∧ s.num x < s.num v := by
  obtain ⟨newer, older⟩ := inv.cut inStack
  have parts : x ∈ s.sccStack ↔ x ∈ s.sccStack.takeWhile (· ≠ v) ∨ x = v ∨
      x ∈ (s.sccStack.dropWhile (· ≠ v)).tail := by
    conv_lhs => rw [← split_at inStack]
    rw [List.mem_append, List.mem_cons]
  rw [parts]
  constructor
  · intro isOlder
    exact ⟨.inr (.inr isOlder), older x isOlder⟩
  · rintro ⟨isNewer | rfl | isOlder, lt⟩
    · have := newer x isNewer
      omega
    · exact absurd lt (Nat.lt_irrefl _)
    · exact isOlder

theorem members_nodup (inv : Inv succ emit out s) (inStack : v ∈ s.sccStack) :
    (s.members v).Nodup := by
  have distinct : s.sccStack.Nodup := by
    apply inv.sorted.imp
    intro x y lt same
    rw [same] at lt
    exact Nat.lt_irrefl _ lt
  rw [members, List.nodup_cons, List.nodup_reverse, List.mem_reverse]
  constructor
  · intro member
    exact Nat.lt_irrefl _ ((inv.cut inStack).1 v member)
  · exact distinct.sublist (List.takeWhile_sublist _)

/-! The vertex on top, all of whose edges were looked at. -/

section Done

variable (inv : Inv succ emit out s) (isWork : s.work = ⟨v, child⟩ :: below)
include inv isWork

omit inv in
theorem path_top : s.path = v :: below.map Frame.v := by
  rw [path, isWork]
  rfl

theorem top_gray : v ∈ s.sccStack := by
  apply inv.gray
  rw [path_top isWork]
  exact List.mem_cons_self ..

theorem below_path {u : V} (inBelow : u ∈ below.map Frame.v) :
    u ∈ s.path ∧ s.num u < s.num v := by
  have sorted := inv.graySorted
  rw [path_top isWork] at sorted ⊢
  exact ⟨List.mem_cons_of_mem _ inBelow, (List.pairwise_cons.mp sorted).1 u inBelow⟩

theorem path_le {u : V} (inPath : u ∈ s.path) : s.num u ≤ s.num v := by
  rw [path_top isWork] at inPath
  rcases List.mem_cons.mp inPath with rfl | inBelow
  · exact Nat.le_refl _
  · exact Nat.le_of_lt (inv.below_path isWork inBelow).2

variable (all : (succ v).length ≤ child)
include all

omit inv in
theorem looked_popped {x z : V} (isLooked : Looked succ below x z) :
    Looked succ s.work x z := by
  refine ⟨isLooked.1, ?_⟩
  intro f member same
  rw [isWork] at member
  rcases List.mem_cons.mp member with rfl | older
  · subst same
    rw [List.take_of_length_le all]
    exact isLooked.1
  · exact isLooked.2 f older same

/-- Above `v` nothing is being explored. -/
theorem looked_all {x z : V} (le : s.num v ≤ s.num x) (inStack : x ∈ s.sccStack)
    (edge : z ∈ succ x) : Looked succ s.work x z := by
  apply looked_popped isWork all
  refine ⟨edge, ?_⟩
  rintro f member rfl
  have lt := (inv.below_path isWork (List.mem_map_of_mem member)).2
  omega

/-- The vertices from `v` on are a component when `v` reaches none further down. -/
theorem members_component (isRoot : s.lowlink v = s.num v) {comps : List (List V)}
    (emission : Emission succ comps)
    (exactly : ∀ x, x ∈ comps.flatten ↔ s.index x ≠ none ∧ x ∉ s.sccStack) :
    Emission succ (comps ++ [s.members v]) := by
  have inStack := inv.top_gray isWork
  have inPath : v ∈ s.path := by
    rw [path_top isWork]
    exact List.mem_cons_self ..
  have closed : ∀ x ∈ s.members v, ∀ z ∈ succ x, z ∈ s.members v ∨ z ∈ comps.flatten := by
    intro x member z edge
    obtain ⟨inX, le⟩ := (inv.mem_members inStack).mp member
    have isLooked := inv.looked_all isWork all le inX edge
    have visited := inv.seen x z (inv.visited x inX) isLooked
    by_cases inZ : z ∈ s.sccStack
    · refine .inl ((inv.mem_members inStack).mpr ⟨inZ, ?_⟩)
      rw [← isRoot]
      exact inv.low v inPath x inX le (fun u isPath _ => inv.path_le isWork isPath) z
        isLooked inZ
    · exact .inr ((exactly z).mpr ⟨visited, inZ⟩)
  have toRoot {x : V} (member : x ∈ s.members v) : Reach succ x v := by
    obtain ⟨inX, _⟩ := (inv.mem_members inStack).mp member
    obtain ⟨u, isPath, _, reach⟩ := inv.up x inX
    exact reach.trans (inv.down u isPath v inStack (inv.path_le isWork isPath))
  have ofRoot {x : V} (member : x ∈ s.members v) : Reach succ v x := by
    obtain ⟨inX, le⟩ := (inv.mem_members inStack).mp member
    exact inv.down v inPath x inX le
  have apart : ∀ x ∈ s.members v, x ∉ comps.flatten := by
    intro x member before
    exact ((exactly x).mp before).2 ((inv.mem_members inStack).mp member).1
  apply Emission.snoc emission (List.cons_ne_nil _ _) (inv.members_nodup inStack) apart closed
  intro x inX y
  constructor
  · intro inY
    exact ⟨(toRoot inX).trans (ofRoot inY), (toRoot inY).trans (ofRoot inX)⟩
  · rintro ⟨there, back⟩
    have stays : y ∈ s.members v ∨ y ∈ comps.flatten := by
      apply Reach.stays (S := fun x => x ∈ s.members v ∨ x ∈ comps.flatten) _ there (.inl inX)
      rintro x (inside | before) z edge
      · exact closed x inside z edge
      · exact .inr (emission.succ_closed x before z edge)
    rcases stays with inside | before
    · exact inside
    · have := Reach.stays (S := fun x => x ∈ comps.flatten) emission.succ_closed back before
      exact absurd this (apart x inX)

/-- The component leaves the stack. For the vertex below nothing changes, since its
lowlink is further down. -/
theorem closed (isRoot : s.lowlink v = s.num v) :
    Inv succ emit out ((s.close emit v).pop v below) := by
  have inStack := inv.top_gray isWork
  let s' : Tarjan V σ := { s.close emit v with work := below }
  have isPop : (s.close emit v).pop v below = s' := by
    cases below with
    | nil => rfl
    | cons parent older =>
        obtain ⟨inPath, lt⟩ := inv.below_path isWork (List.mem_map_of_mem (List.mem_cons_self ..))
        have le := (inv.lowlink parent.v inPath).1
        have kept : min (s.lowlink parent.v) (s.lowlink v) = s.lowlink parent.v := by
          rw [isRoot]
          omega
        show { s.close emit v with
          lowlink := Function.update s.lowlink parent.v (min (s.lowlink parent.v) (s.lowlink v))
          work := parent :: older } = s'
        rw [kept, Function.update_eq_self]
        rfl
  rw [isPop]
  have mem_stack {x : V} : x ∈ s'.sccStack ↔ x ∈ s.sccStack ∧ s.num x < s.num v :=
    inv.mem_rest inStack
  have isSublist : s'.sccStack.Sublist s.sccStack :=
    (List.tail_sublist _).trans (List.dropWhile_sublist _)
  have inPath {u : V} (inBelow : u ∈ s'.path) : u ∈ s.path ∧ s.num u < s.num v :=
    inv.below_path isWork inBelow
  have notTop {u x : V} (isPath : u ∈ s.path) (le : s.num u ≤ s.num x)
      (inX : x ∈ s'.sccStack) : u ∈ s'.path := by
    rw [path_top isWork] at isPath
    rcases List.mem_cons.mp isPath with rfl | inBelow
    · have := (mem_stack.mp inX).2
      omega
    · exact inBelow
  have looked {x z : V} (isLooked : Looked succ s'.work x z) : Looked succ s.work x z :=
    looked_popped isWork all isLooked
  constructor
  · exact inv.counted
  · exact inv.injective
  · intro x
    rw [mem_stack, ← inv.onStack]
    show (if x ∈ s.members v then false else s.onStack x) = true ↔ _
    by_cases member : x ∈ s.members v
    · have := ((inv.mem_members inStack).mp member).2
      simp only [if_pos member]
      constructor
      · intro isFalse
        cases isFalse
      · rintro ⟨_, lt⟩
        omega
    · rw [if_neg member]
      constructor
      · intro on
        refine ⟨on, ?_⟩
        by_contra notLess
        apply member
        exact (inv.mem_members inStack).mpr ⟨(inv.onStack x).mp on, Nat.le_of_not_lt notLess⟩
      · exact And.left
  · intro x inX
    exact inv.visited x (mem_stack.mp inX).1
  · exact inv.sorted.sublist isSublist
  · intro u inBelow
    obtain ⟨isPath, lt⟩ := inPath inBelow
    exact mem_stack.mpr ⟨inv.gray u isPath, lt⟩
  · have sorted := inv.graySorted
    rw [path_top isWork] at sorted
    exact (List.pairwise_cons.mp sorted).2
  · intro f member
    apply inv.resumed f
    rw [isWork]
    exact List.mem_of_mem_tail member
  · intro x z isVisited isLooked
    exact inv.seen x z isVisited (looked isLooked)
  · obtain ⟨comps, isOut, emission, exactly⟩ := inv.handed
    refine ⟨comps ++ [s.members v], ?_, inv.members_component isWork all isRoot emission exactly,
      ?_⟩
    · show emit s.out (s.members v) = _
      rw [isOut, List.foldl_append]
      rfl
    · intro x
      rw [List.flatten_append, List.mem_append, exactly, mem_stack]
      simp only [List.flatten_cons, List.flatten_nil, List.append_nil]
      rw [inv.mem_members inStack]
      show _ ↔ s.index x ≠ none ∧ _
      constructor
      · rintro (⟨visited, notStack⟩ | ⟨inX, le⟩)
        · exact ⟨visited, fun inRest => notStack inRest.1⟩
        · exact ⟨inv.visited x inX, fun inRest => by omega⟩
      · rintro ⟨visited, notRest⟩
        by_cases inX : x ∈ s.sccStack
        · exact .inr ⟨inX, Nat.le_of_not_lt fun lt => notRest ⟨inX, lt⟩⟩
        · exact .inl ⟨visited, inX⟩
  · intro u inBelow x inX le
    exact inv.down u (inPath inBelow).1 x (mem_stack.mp inX).1 le
  · intro x inX
    obtain ⟨u, isPath, le, reach⟩ := inv.up x (mem_stack.mp inX).1
    exact ⟨u, notTop isPath le inX, le, reach⟩
  · intro u inBelow
    obtain ⟨isPath, lt⟩ := inPath inBelow
    obtain ⟨le, z, inZ, same, reach⟩ := inv.lowlink u isPath
    refine ⟨le, z, mem_stack.mpr ⟨inZ, ?_⟩, same, reach⟩
    omega
  · intro u inBelow x inX le last z isLooked inZ
    apply inv.low u (inPath inBelow).1 x (mem_stack.mp inX).1 le _ z (looked isLooked)
      (mem_stack.mp inZ).1
    intro u' isPath leX
    exact last u' (notTop isPath leX inX) leX

/-- A vertex that reaches one further down stays on the stack; the vertex below it then
reaches that one as well. -/
theorem popped (notRoot : s.lowlink v ≠ s.num v) : Inv succ emit out (s.pop v below) := by
  have inStack := inv.top_gray isWork
  have top : v ∈ s.path := by
    rw [path_top isWork]
    exact List.mem_cons_self ..
  obtain ⟨leTop, low, inLow, isLow, reachLow⟩ := inv.lowlink v top
  obtain ⟨further, isFurther, leFurther, reachFurther⟩ := inv.up low inLow
  have notTop {u : V} (isPath : u ∈ s.path) (lt : s.num u < s.num v) :
      u ∈ below.map Frame.v := by
    rw [path_top isWork] at isPath
    rcases List.mem_cons.mp isPath with rfl | inBelow
    · exact absurd lt (Nat.lt_irrefl _)
    · exact inBelow
  have inBelow : further ∈ below.map Frame.v := notTop isFurther (by omega)
  cases below with
  | nil => cases inBelow
  | cons parent older =>
      let s' : Tarjan V σ := { s.lower parent.v (s.lowlink v) with work := parent :: older }
      show Inv succ emit out s'
      have inPath {u : V} (inBelow : u ∈ s'.path) : u ∈ s.path ∧ s.num u < s.num v :=
        inv.below_path isWork inBelow
      obtain ⟨isPath, lt⟩ := inPath (List.mem_cons_self .. : parent.v ∈ s'.path)
      have low_parent : s'.lowlink parent.v = min (s.lowlink parent.v) (s.lowlink v) := by
        simp [s', Tarjan.lower]
      have low_other {u : V} (ne : u ≠ parent.v) : s'.lowlink u = s.lowlink u := by
        simp [s', Tarjan.lower, ne]
      have low_le (u : V) : s'.lowlink u ≤ s.lowlink u := by
        by_cases same : u = parent.v
        · rw [same, low_parent]
          exact Nat.min_le_left _ _
        · rw [low_other same]
      have looked {x z : V} (isLooked : Looked succ s'.work x z) : Looked succ s.work x z :=
        looked_popped isWork all isLooked
      have sortedBelow : s'.path.Pairwise fun x y => s.num y < s.num x := by
        have sorted := inv.graySorted
        rw [path_top isWork] at sorted
        exact (List.pairwise_cons.mp sorted).2
      constructor
      · exact inv.counted
      · exact inv.injective
      · exact inv.onStack
      · exact inv.visited
      · exact inv.sorted
      · intro u inBelow
        exact inv.gray u (inPath inBelow).1
      · exact sortedBelow
      · intro f member
        apply inv.resumed f
        rw [isWork]
        exact List.mem_of_mem_tail member
      · intro x z isVisited isLooked
        exact inv.seen x z isVisited (looked isLooked)
      · exact inv.handed
      · intro u inBelow
        exact inv.down u (inPath inBelow).1
      · intro x inX
        obtain ⟨u, isPath, le, reach⟩ := inv.up x inX
        rw [path_top isWork] at isPath
        rcases List.mem_cons.mp isPath with rfl | inBelow
        · refine ⟨further, notTop isFurther (by omega), ?_, ?_⟩
          · show s.num further ≤ s.num x
            omega
          · exact (reach.trans reachLow).trans reachFurther
        · exact ⟨u, inBelow, le, reach⟩
      · intro u inBelow
        obtain ⟨isPath, _⟩ := inPath inBelow
        obtain ⟨le, z, inZ, same, reach⟩ := inv.lowlink u isPath
        refine ⟨(low_le u).trans le, ?_⟩
        by_cases isParent : u = parent.v
        · subst isParent
          rw [low_parent]
          rcases Nat.le_total (s.lowlink parent.v) (s.lowlink v) with kept | lowered
          · rw [Nat.min_eq_left kept]
            exact ⟨z, inZ, same, reach⟩
          · rw [Nat.min_eq_right lowered]
            have down := inv.down parent.v isPath v inStack (Nat.le_of_lt lt)
            exact ⟨low, inLow, isLow, down.trans reachLow⟩
        · rw [low_other isParent]
          exact ⟨z, inZ, same, reach⟩
      · intro u inBelow x inX le last z isLooked inZ
        by_cases above : s.num v ≤ s.num x
        · -- What was above `v` is above the vertex below it now.
          have isLast : ∀ w ∈ s.path, s.num w ≤ s.num x → s.num w ≤ s.num v :=
            fun w isPath _ => inv.path_le isWork isPath
          have leLow := inv.low v top x inX above isLast z (looked isLooked) inZ
          have isBelow : s.num parent.v ≤ s.num x := by omega
          have leParent : s.num parent.v ≤ s.num u := last parent.v (List.mem_cons_self ..) isBelow
          have isParent : u = parent.v := by
            rcases List.mem_cons.mp inBelow with same | inOlder
            · exact same
            · have less := (List.pairwise_cons.mp sortedBelow).1 u inOlder
              exact absurd leParent (Nat.not_le_of_lt less)
          subst isParent
          rw [low_parent]
          exact (Nat.min_le_right _ _).trans leLow
        · apply (low_le u).trans
          apply inv.low u (inPath inBelow).1 x inX le _ z (looked isLooked) inZ
          intro w isPath leX
          exact last w (notTop isPath (by omega)) leX

end Done

end Inv

/-! ### Runs -/

/-- Between two turns: the vertex on top is being explored, or waits to be entered. -/
inductive Head (succ : V → List V) (emit : σ → List V → σ) (out : σ) (s : Tarjan V σ) :
    Prop where
  | idle (isWork : s.work = []) (inv : Inv succ emit out s)
  | waiting (v : V) (below : List (Frame V)) (isWork : s.work = ⟨v, 0⟩ :: below)
      (fresh : s.index v = none) (inv : Inv succ emit out (s.visit v))
  | exploring (v : V) (child : Nat) (below : List (Frame V))
      (isWork : s.work = ⟨v, child + 1⟩ :: below) (inv : Inv succ emit out s)

/-- The vertex was visited, or will be. -/
def Met (s : Tarjan V σ) (x : V) : Prop := s.index x ≠ none ∨ x ∈ s.path

variable [Fintype V]

/-- The number of vertices that were not visited. -/
def unvisited (s : Tarjan V σ) : Nat := (Finset.univ.filter (s.index · = none)).card

/-- Each turn makes this smaller: it visits a vertex, or puts one on top to be visited, or
takes one away. -/
def measure (s : Tarjan V σ) : Nat :=
  4 * s.unvisited + s.work.length +
    match s.work with
    | ⟨_, 0⟩ :: _ => 0
    | _ => 2

theorem unvisited_visit {s : Tarjan V σ} {v : V} (fresh : s.index v = none) :
    (s.visit v).unvisited + 1 = s.unvisited := by
  have erased : Finset.univ.filter (fun x => (s.visit v).index x = none) =
      (Finset.univ.filter fun x => s.index x = none).erase v := by
    ext x
    rw [Finset.mem_erase, Finset.mem_filter, Finset.mem_filter]
    by_cases same : x = v
    · subst same
      simp [visit]
    · simp [visit, same]
  rw [unvisited, erased]
  apply Finset.card_erase_add_one
  simp [fresh]

theorem unvisited_congr {s t : Tarjan V σ} (same : s.index = t.index) :
    s.unvisited = t.unvisited := by
  rw [unvisited, same, unvisited]

/-- What a turn does with the vertex on top, which is visited by now. -/
theorem explored {emit : σ → List V → σ} {out : σ} {s : Tarjan V σ} {v : V} {child : Nat}
    {below : List (Frame V)} (isWork : s.work = ⟨v, child⟩ :: below)
    (inv : Inv succ emit out s) {t : Tarjan V σ}
    (isTurn : (match s.scan v below ((succ v).drop child) child with
      | (s, true) => some s
      | (s, false) => some ((if s.lowlink v = s.num v then s.close emit v else s).pop v below))
        = some t) :
    Head succ emit out t ∧ t.index = s.index ∧
      t.measure ≤ 4 * s.unvisited + below.length + 2 ∧ ∀ x ∈ below.map Frame.v, x ∈ t.path := by
  have same : { s with work := ⟨v, child⟩ :: below } = s := by
    rw [← isWork]
  have scanned := scan_scanned (s := s) (by rw [same]; exact inv)
  generalize s.scan v below ((succ v).drop child) child = result at scanned isTurn
  obtain ⟨s', found⟩ := result
  obtain ⟨index, done, fresh⟩ := scanned
  cases found with
  | true =>
      cases isTurn
      obtain ⟨w, child', isWork', isFresh, inv'⟩ := fresh rfl
      refine ⟨.waiting w _ isWork' isFresh inv', index, ?_, ?_⟩
      · rw [measure, isWork', unvisited_congr index]
        simp only [List.length_cons]
        omega
      · intro x inBelow
        rw [path, isWork']
        exact List.mem_cons_of_mem _ (List.mem_cons_of_mem _ inBelow)
  | false =>
      cases isTurn
      obtain ⟨inv', child', all, isWork'⟩ := done rfl
      generalize isAfter :
        (if s'.lowlink v = s'.num v then s'.close emit v else s').pop v below = after
      have popInv : Inv succ emit out after := by
        by_cases isRoot : s'.lowlink v = s'.num v
        · rw [← isAfter, if_pos isRoot]
          exact inv'.closed isWork' all isRoot
        · rw [← isAfter, if_neg isRoot]
          exact inv'.popped isWork' all isRoot
      have popWork : after.work = below := by
        rw [← isAfter]
        cases below <;> rfl
      have popIndex : after.index = s.index := by
        rw [← index, ← isAfter]
        cases below <;> split <;> rfl
      have resumed := inv'.resumed
      rw [isWork'] at resumed
      refine ⟨?_, popIndex, ?_, ?_⟩
      · cases isBelow : below with
        | nil => exact .idle (popWork.trans isBelow) popInv
        | cons f older =>
            obtain ⟨p, c⟩ := f
            have started : c ≠ 0 := resumed ⟨p, c⟩ (isBelow ▸ List.mem_cons_self ..)
            obtain ⟨c, rfl⟩ := Nat.exists_eq_succ_of_ne_zero started
            exact .exploring p c older (popWork.trans isBelow) popInv
      · rw [measure, popWork, unvisited_congr popIndex]
        split <;> omega
      · intro x inBelow
        rw [path, popWork]
        exact inBelow

/-- What one turn keeps. -/
theorem turn_head {emit : σ → List V → σ} {out : σ} {s t : Tarjan V σ}
    (isTurn : s.turn succ emit = some t) (head : Head succ emit out s) :
    Head succ emit out t ∧ t.measure < s.measure ∧ ∀ x, s.Met x → t.Met x := by
  cases head with
  | idle isWork inv =>
      rw [turn, isWork] at isTurn
      cases isTurn
  | waiting v below isWork fresh inv =>
      have isVisit : (s.visit v).work = ⟨v, 0⟩ :: below := isWork
      rw [turn, isWork] at isTurn
      obtain ⟨head, index, le, kept⟩ := explored isVisit inv isTurn
      have count := unvisited_visit fresh
      refine ⟨head, ?_, ?_⟩
      · rw [measure.eq_def s, isWork]
        simp only [List.length_cons]
        omega
      · rintro x (visited | inPath)
        · refine .inl ?_
          rw [index]
          by_cases same : x = v
          · subst same
            simp [visit]
          · simpa [visit, same] using visited
        · rw [path, isWork] at inPath
          rcases List.mem_cons.mp inPath with rfl | inBelow
          · refine .inl ?_
            rw [index]
            simp [visit]
          · exact .inr (kept x inBelow)
  | exploring v child below isWork inv =>
      rw [turn, isWork] at isTurn
      obtain ⟨head, index, le, kept⟩ := explored isWork inv isTurn
      refine ⟨head, ?_, ?_⟩
      · rw [measure.eq_def s, isWork]
        simp only [List.length_cons]
        omega
      · rintro x (visited | inPath)
        · exact .inl (index ▸ visited)
        · rw [path, isWork] at inPath
          rcases List.mem_cons.mp inPath with rfl | inBelow
          · refine .inl ?_
            rw [index]
            apply inv.visited
            exact inv.top_gray isWork
          · exact .inr (kept x inBelow)

/-- From one root, everything that was met is visited at the end. -/
theorem loop_head {emit : σ → List V → σ} {out : σ} {s : Tarjan V σ}
    (head : Head succ emit out s) {fuel : Nat} (enough : s.measure < fuel) :
    ∃ t, loop (turn succ emit) fuel s = some t ∧ t.work = [] ∧ Inv succ emit out t ∧
      ∀ x, s.Met x → t.index x ≠ none := by
  obtain ⟨t, isLoop, ended, last, met⟩ := loop_ends
    (fun t => Head succ emit out t ∧ ∀ x, s.Met x → t.Met x) measure
    (fun a b isTurn before => by
      obtain ⟨head, less, kept⟩ := turn_head isTurn before.1
      exact ⟨⟨head, fun x isMet => kept x (before.2 x isMet)⟩, less⟩)
    ⟨head, fun _ isMet => isMet⟩ enough
  have isWork : t.work = [] := by
    cases empty : t.work with
    | nil => rfl
    | cons f below =>
        rw [turn, empty] at ended
        simp only at ended
        split at ended <;> cases ended
  refine ⟨t, isLoop, isWork, ?_, ?_⟩
  · cases last with
    | idle _ inv => exact inv
    | waiting v below isWork' => exact absurd isWork' (by simp [isWork])
    | exploring v child below isWork' => exact absurd isWork' (by simp [isWork])
  · intro x isMet
    rcases met x isMet with visited | inPath
    · exact visited
    · rw [path, isWork] at inPath
      cases inPath

theorem measure_root (s : Tarjan V σ) (root : V) :
    measure { s with work := [⟨root, 0⟩] } ≤ 4 * Fintype.card V + 1 := by
  have le : unvisited { s with work := [⟨root, 0⟩] } ≤ Fintype.card V := Finset.card_le_univ _
  show 4 * unvisited { s with work := [⟨root, 0⟩] } + 1 + 0 ≤ _
  omega

theorem roots_inv (emit : σ → List V → σ) (out : σ) (roots : List V) {fuel : Nat}
    (enough : 4 * Fintype.card V + 1 < fuel) {s : Tarjan V σ} (isWork : s.work = [])
    (inv : Inv succ emit out s) :
    ∃ t, roots.foldlM (fun s root =>
        if s.index root ≠ none then some s
        else loop (turn succ emit) fuel { s with work := [⟨root, 0⟩] }) s = some t ∧
      t.work = [] ∧ Inv succ emit out t ∧ (∀ x, s.index x ≠ none → t.index x ≠ none) ∧
      ∀ root ∈ roots, t.index root ≠ none := by
  induction roots generalizing s with
  | nil => exact ⟨s, rfl, isWork, inv, fun _ visited => visited, by simp⟩
  | cons root more ih =>
      rw [List.foldlM_cons]
      by_cases visited : s.index root ≠ none
      · rw [if_pos visited]
        obtain ⟨t, isFold, isWork', inv', kept, all⟩ := ih isWork inv
        refine ⟨t, isFold, isWork', inv', kept, ?_⟩
        intro x member
        rcases List.mem_cons.mp member with rfl | isMore
        · exact kept x visited
        · exact all x isMore
      · have fresh : s.index root = none := not_not.mp visited
        rw [if_neg visited]
        have samePath : ([] : List (Frame V)).map Frame.v = s.path := by
          rw [path, isWork, List.map_nil]
        have entered : Inv succ emit out ({ s with work := [⟨root, 0⟩] }.visit root) := by
          apply inv.enter fresh samePath (by simp)
          · intro x z isLooked
            rw [isWork]
            exact .inl isLooked
          · rw [← samePath]
            simp
        have head : Head succ emit out { s with work := [⟨root, 0⟩] } :=
          .waiting root [] rfl fresh entered
        obtain ⟨u, isLoop, isWork', inv', met⟩ :=
          loop_head head ((measure_root s root).trans_lt enough)
        obtain ⟨t, isFold, isWork'', inv'', kept, all⟩ := ih isWork' inv'
        refine ⟨t, ?_, isWork'', inv'', ?_, ?_⟩
        · rw [isLoop]
          exact isFold
        · intro x isVisited
          exact kept x (met x (.inl isVisited))
        · intro x member
          rcases List.mem_cons.mp member with rfl | isMore
          · exact kept x (met x (.inr (List.mem_cons_self ..)))
          · exact all x isMore

/-- With enough turns the algorithm ends, and hands over components that have all of the
roots. -/
theorem run_emission (emit : σ → List V → σ) (out : σ) (roots : List V) {fuel : Nat}
    (enough : 4 * Fintype.card V + 1 < fuel) :
    ∃ comps, run succ emit fuel roots out = some (comps.foldl emit out) ∧
      Emission succ comps ∧ ∀ root ∈ roots, root ∈ comps.flatten := by
  have initial : Inv succ emit out (Tarjan.start out : Tarjan V σ) := Inv.start
  obtain ⟨t, isFold, isWork, inv, _, all⟩ := roots_inv emit out roots enough rfl initial
  obtain ⟨comps, isOut, emission, exactly⟩ := inv.handed
  refine ⟨comps, ?_, emission, ?_⟩
  · rw [run, isFold, ← isOut]
    rfl
  · intro root member
    rw [exactly]
    refine ⟨all root member, ?_⟩
    intro inStack
    obtain ⟨v, inPath, _⟩ := inv.up root inStack
    rw [path, isWork] at inPath
    cases inPath

end Tarjan

end Bunx.Lib
