/-
Module: Bunx.Lib.HopDistance
Purpose: Recursive search of a graph that lowers distances and may come to a vertex again when
  the way is shorter. The distances outlive a search, what it has seen does not.
Trusted boundary: none
Main exports: Steps, Labels, Settled, Relaxes, Relaxes.enter, Relaxes.append, Deep, foldlM_relaxes
-/
import Mathlib.Data.Fintype.Card

namespace Bunx.Lib

variable {V : Type} {succ : V → List V} {limit : Nat}

/-- A path with the given number of edges. -/
inductive Steps (succ : V → List V) : Nat → V → V → Prop where
  | refl {x : V} : Steps succ 0 x x
  | tail {k : Nat} {x y z : V} (steps : Steps succ k x y) (edge : z ∈ succ y) :
      Steps succ (k + 1) x z

theorem Steps.head {k : Nat} {x y z : V} (edge : y ∈ succ x) (steps : Steps succ k y z) :
    Steps succ (k + 1) x z := by
  induction steps with
  | refl => exact .tail .refl edge
  | tail _ last ih => exact .tail (ih edge) last

/-- The distance of each vertex, and what the search has seen. -/
structure Labels (V : Type) where
  dist : V → Nat
  seen : V → Prop

/-- A vertex that the search has not seen has its edges accounted for by earlier searches. From
`limit` on a distance says that there has been none. -/
def Settled (succ : V → List V) (limit : Nat) (labels : Labels V) : Prop :=
  ∀ x, ¬labels.seen x → labels.dist x < limit → ∀ y ∈ succ x, labels.dist y ≤ labels.dist x + 1

/-- A vertex has come nearer or has been seen. -/
def Changed (before after : Labels V) (x : V) : Prop :=
  after.dist x < before.dist x ∨ after.seen x ∧ ¬before.seen x

/-- What visits of the given vertices, all at distance `d`, do to the labels: the edges of a
vertex that has changed are accounted for at the end. -/
structure Relaxes (succ : V → List V) (limit : Nat) (before after : Labels V) (visited : List V)
    (d : Nat) : Prop where
  lower : ∀ x, after.dist x ≤ before.dist x
  kept : ∀ x, before.seen x → after.seen x
  nearer : ∀ x, after.dist x < before.dist x → after.seen x
  all : ∀ x ∈ visited, after.seen x ∧ after.dist x ≤ d
  closed : ∀ x, Changed before after x →
    ∀ y ∈ succ x, after.seen y ∧ after.dist y ≤ after.dist x + 1
  short : ∀ x, Changed before after x → after.dist x < limit
  reached : ∀ x, Changed before after x → ∃ v ∈ visited, ∃ k, Steps succ k v x
  length : ∀ x, after.dist x < before.dist x →
    ∃ v ∈ visited, ∃ k, Steps succ k v x ∧ after.dist x = d + k

/-- A vertex that is entered has been seen. -/
theorem Settled.enter {before middle : Labels V} {v : V} (isSettled : Settled succ limit before)
    (other : ∀ x, x ≠ v → middle.dist x = before.dist x ∧ (middle.seen x ↔ before.seen x))
    (lower : middle.dist v ≤ before.dist v) (isSeen : middle.seen v) :
    Settled succ limit middle := by
  intro x fresh finite y edge
  have different : x ≠ v := by
    rintro rfl
    exact fresh isSeen
  obtain ⟨sameDist, sameSeen⟩ := other x different
  rw [sameDist] at finite ⊢
  have early := isSettled x (mt sameSeen.mpr fresh) finite y edge
  by_cases same : y = v
  · rw [same] at early ⊢
    exact lower.trans early
  · rwa [(other y same).1]

namespace Relaxes

variable {before middle after : Labels V} {v : V} {vs ws : List V} {d : Nat}

theorem not_changed_self (labels : Labels V) (x : V) : ¬Changed labels labels x := by
  rintro (nearer | ⟨seen, fresh⟩)
  · exact lt_irrefl _ nearer
  · exact fresh seen

/-- Nothing changes when all that is visited has been seen at the distance. -/
theorem again (all : ∀ x ∈ vs, before.seen x ∧ before.dist x ≤ d) :
    Relaxes succ limit before before vs d where
  lower _ := le_rfl
  kept _ seen := seen
  nearer _ nearer := absurd nearer (lt_irrefl _)
  all := all
  closed x changed := absurd changed (not_changed_self before x)
  short x changed := absurd changed (not_changed_self before x)
  reached x changed := absurd changed (not_changed_self before x)
  length _ nearer := absurd nearer (lt_irrefl _)

/-- What has not changed keeps its distance. -/
theorem dist_eq (relaxes : Relaxes succ limit before after vs d) {x : V}
    (same : ¬Changed before after x) : after.dist x = before.dist x := by
  apply le_antisymm (relaxes.lower x)
  exact not_lt.mp fun nearer => same (.inl nearer)

theorem settled (relaxes : Relaxes succ limit before after vs d)
    (isSettled : Settled succ limit before) : Settled succ limit after := by
  intro x fresh finite y edge
  have same : after.dist x = before.dist x := by
    apply relaxes.dist_eq
    rintro (nearer | ⟨seen, _⟩)
    · exact fresh (relaxes.nearer x nearer)
    · exact fresh seen
  rw [same] at finite ⊢
  have early := isSettled x (fun seen => fresh (relaxes.kept x seen)) finite y edge
  exact (relaxes.lower y).trans early

/-- What changes changes in one of two rows of visits. -/
theorem changed_split (first : Relaxes succ limit before middle vs d) {x : V}
    (changed : Changed before after x) (same : ¬Changed middle after x) :
    Changed before middle x := by
  rcases changed with nearer | ⟨seen, fresh⟩
  · by_cases early : middle.dist x < before.dist x
    · exact .inl early
    · have le := first.lower x
      exact absurd (Or.inl (by omega)) same
  · by_cases early : middle.seen x
    · exact .inr ⟨early, fresh⟩
    · exact absurd (Or.inr ⟨seen, early⟩) same

theorem append (first : Relaxes succ limit before middle vs d)
    (second : Relaxes succ limit middle after ws d) :
    Relaxes succ limit before after (vs ++ ws) d where
  lower x := (second.lower x).trans (first.lower x)
  kept x seen := second.kept x (first.kept x seen)
  nearer x nearer := by
    by_cases late : after.dist x < middle.dist x
    · exact second.nearer x late
    · exact second.kept x (first.nearer x (by omega))
  all x member := by
    rcases List.mem_append.mp member with isFirst | isSecond
    · obtain ⟨seen, near⟩ := first.all x isFirst
      exact ⟨second.kept x seen, (second.lower x).trans near⟩
    · exact second.all x isSecond
  closed x changed y edge := by
    by_cases late : Changed middle after x
    · exact second.closed x late y edge
    · obtain ⟨seen, near⟩ := first.closed x (first.changed_split changed late) y edge
      rw [second.dist_eq late]
      exact ⟨second.kept y seen, (second.lower y).trans near⟩
  short x changed := by
    by_cases late : Changed middle after x
    · exact second.short x late
    · rw [second.dist_eq late]
      exact first.short x (first.changed_split changed late)
  reached x changed := by
    by_cases late : Changed middle after x
    · obtain ⟨v, member, path⟩ := second.reached x late
      exact ⟨v, List.mem_append_right _ member, path⟩
    · obtain ⟨v, member, path⟩ := first.reached x (first.changed_split changed late)
      exact ⟨v, List.mem_append_left _ member, path⟩
  length x nearer := by
    by_cases late : after.dist x < middle.dist x
    · obtain ⟨v, member, path⟩ := second.length x late
      exact ⟨v, List.mem_append_right _ member, path⟩
    · have same : after.dist x = middle.dist x := le_antisymm (second.lower x) (not_lt.mp late)
      obtain ⟨v, member, path⟩ := first.length x (by omega)
      rw [same]
      exact ⟨v, List.mem_append_left _ member, path⟩

/-- A vertex is entered that has not been seen at the distance, and then all that it leads to is
visited one step further. -/
theorem enter (isSettled : Settled succ limit before) (isShort : d < limit)
    (other : ∀ x, x ≠ v → middle.dist x = before.dist x ∧ (middle.seen x ↔ before.seen x))
    (isDist : middle.dist v = min d (before.dist v)) (isSeen : middle.seen v)
    (enters : d < before.dist v ∨ ¬before.seen v)
    (edges : Relaxes succ limit middle after (succ v) (d + 1)) :
    Relaxes succ limit before after [v] d := by
  have lowerMiddle (x : V) : middle.dist x ≤ before.dist x := by
    by_cases same : x = v
    · rw [same, isDist]
      exact min_le_right _ _
    · exact (other x same).1.le
  -- What does not change any more is the vertex itself or has not changed at all.
  have isVertex {x : V} (changed : Changed before after x) (same : ¬Changed middle after x) :
      x = v := by
    by_contra different
    apply same
    rcases changed with nearer | ⟨seen, fresh⟩
    · exact .inl (nearer.trans_eq (other x different).1.symm)
    · exact .inr ⟨seen, mt (other x different).2.mp fresh⟩
  exact {
    lower := fun x => (edges.lower x).trans (lowerMiddle x)
    kept := fun x seen => by
      by_cases same : x = v
      · rw [same]
        exact edges.kept v isSeen
      · exact edges.kept x ((other x same).2.mpr seen)
    nearer := fun x nearer => by
      by_cases same : x = v
      · rw [same]
        exact edges.kept v isSeen
      · exact edges.nearer x (nearer.trans_eq (other x same).1.symm)
    all := fun x member => by
      rw [List.mem_singleton.mp member]
      refine ⟨edges.kept v isSeen, (edges.lower v).trans ?_⟩
      rw [isDist]
      exact min_le_left _ _
    closed := fun x changed y edge => by
      by_cases late : Changed middle after x
      · exact edges.closed x late y edge
      · have same := isVertex changed late
        subst same
        obtain ⟨seen, near⟩ := edges.all y edge
        rw [edges.dist_eq late, isDist]
        refine ⟨seen, ?_⟩
        by_cases shorter : d ≤ before.dist x
        · rwa [min_eq_left shorter]
        · -- Only its bit is new, and its edges are accounted for by earlier searches.
          have fresh : ¬before.seen x := enters.resolve_left (by omega)
          have early := isSettled x fresh (by omega) y edge
          rw [min_eq_right (by omega)]
          exact ((edges.lower y).trans (lowerMiddle y)).trans early
    short := fun x changed => by
      by_cases late : Changed middle after x
      · exact edges.short x late
      · rw [edges.dist_eq late, isVertex changed late, isDist]
        exact (min_le_left _ _).trans_lt isShort
    reached := fun x changed => by
      refine ⟨v, List.mem_singleton_self v, ?_⟩
      by_cases late : Changed middle after x
      · obtain ⟨w, edge, k, steps⟩ := edges.reached x late
        exact ⟨k + 1, .head edge steps⟩
      · rw [isVertex changed late]
        exact ⟨0, .refl⟩
    length := fun x nearer => by
      refine ⟨v, List.mem_singleton_self v, ?_⟩
      by_cases late : after.dist x < middle.dist x
      · obtain ⟨w, edge, k, steps, isLength⟩ := edges.length x late
        exact ⟨k + 1, .head edge steps, by omega⟩
      · have kept : after.dist x = middle.dist x := le_antisymm (edges.lower x) (not_lt.mp late)
        have same : x = v := by
          by_contra different
          have := (other x different).1
          omega
        subst same
        refine ⟨0, .refl, ?_⟩
        rw [kept, isDist] at nearer ⊢
        rw [min_eq_left (by omega)]
        rfl }

end Relaxes

/-! ### Depth -/

section Depth

variable [Fintype V]

open Classical in
/-- At least `d` vertices have been seen nearer than `d`: those on the way to a visit. -/
def Deep (labels : Labels V) (d : Nat) : Prop :=
  d ≤ (Finset.univ.filter fun x => labels.seen x ∧ labels.dist x < d).card

theorem Deep.zero (labels : Labels V) : Deep labels 0 := Nat.zero_le _

theorem Deep.le_card {labels : Labels V} {d : Nat} (deep : Deep labels d) : d ≤ Fintype.card V :=
  deep.trans (Finset.card_le_univ _)

theorem Deep.mono {before after : Labels V} {d : Nat} (deep : Deep before d)
    (lower : ∀ x, after.dist x ≤ before.dist x) (kept : ∀ x, before.seen x → after.seen x) :
    Deep after d := by
  classical
  apply deep.trans
  apply Finset.card_le_card
  intro x
  simp only [Finset.mem_filter, Finset.mem_univ, true_and]
  exact fun ⟨seen, near⟩ => ⟨kept x seen, (lower x).trans_lt near⟩

/-- A vertex that is entered is one more. -/
theorem Deep.enter {before middle : Labels V} {d : Nat} {v : V} (deep : Deep before d)
    (other : ∀ x, x ≠ v → middle.dist x = before.dist x ∧ (middle.seen x ↔ before.seen x))
    (isDist : middle.dist v ≤ d) (isSeen : middle.seen v)
    (enters : d < before.dist v ∨ ¬before.seen v) : Deep middle (d + 1) := by
  classical
  have fresh : v ∉ Finset.univ.filter fun x => before.seen x ∧ before.dist x < d := by
    simp only [Finset.mem_filter, Finset.mem_univ, true_and]
    rintro ⟨seen, near⟩
    rcases enters with shorter | new
    · omega
    · exact new seen
  unfold Deep
  apply (Nat.add_le_add_right deep 1).trans
  rw [← Finset.card_insert_of_notMem fresh]
  apply Finset.card_le_card
  intro x
  simp only [Finset.mem_insert, Finset.mem_filter, Finset.mem_univ, true_and]
  rintro (rfl | ⟨seen, near⟩)
  · exact ⟨isSeen, by omega⟩
  · by_cases same : x = v
    · rw [same]
      exact ⟨isSeen, by omega⟩
    · rw [(other x same).1, (other x same).2]
      exact ⟨seen, by omega⟩

/-- A loop each turn of which makes some visits at one distance. -/
theorem foldlM_relaxes {σ ι : Type} {step : σ → ι → Option σ} (view : σ → Labels V)
    (target : ι → List V) {d : Nat} {items : List ι}
    (each : ∀ i ∈ items, ∀ s, Settled succ limit (view s) → Deep (view s) d →
      ∃ t, step s i = some t ∧ Relaxes succ limit (view s) (view t) (target i) d)
    {s : σ} (isSettled : Settled succ limit (view s)) (deep : Deep (view s) d) :
    ∃ t, items.foldlM step s = some t ∧
      Relaxes succ limit (view s) (view t) (items.flatMap target) d := by
  induction items generalizing s with
  | nil =>
      refine ⟨s, rfl, .again ?_⟩
      intro x member
      cases member
  | cons i items ih =>
      obtain ⟨u, isStep, first⟩ := each i (List.mem_cons_self ..) s isSettled deep
      obtain ⟨t, isFold, rest⟩ := ih
        (fun j member => each j (List.mem_cons_of_mem _ member))
        (first.settled isSettled) (deep.mono first.lower first.kept)
      refine ⟨t, ?_, ?_⟩
      · rw [List.foldlM_cons, isStep]
        exact isFold
      · rw [List.flatMap_cons]
        exact first.append rest

end Depth

end Bunx.Lib
