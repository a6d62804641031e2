/-
Module: Bunx.Lib.Marking
Purpose: Recursive marking of a graph: what is marked by visits that mark a vertex before they
  visit those that it leads to, stated for a visit or a row of visits that has come to its end.
Trusted boundary: none
Main exports: Marks, Marks.enter, Marks.append, Marks.exact, unmarked, foldlM_marks
-/
import Bunx.Lib.Reach

namespace Bunx.Lib

variable {V : Type} {succ : V → List V}

/-- What visits of the given vertices do to what is marked: a vertex that was marked on the
way has all its edges within what is marked at the end. The vertices that were marked before
may still be waiting for their edges. -/
structure Marks (succ : V → List V) (before after : V → Prop) (visited : List V) : Prop where
  kept : ∀ x, before x → after x
  all : ∀ x ∈ visited, after x
  closed : ∀ x, after x → ¬before x → ∀ y ∈ succ x, after y
  reached : ∀ x, after x → ¬before x → ∃ v ∈ visited, Reach succ v x

namespace Marks

variable {before middle after : V → Prop} {v : V} {vs ws : List V}

theorem nil : Marks succ before before [] where
  kept _ marked := marked
  all _ member := by cases member
  closed _ marked fresh := absurd marked fresh
  reached _ marked fresh := absurd marked fresh

/-- A vertex that is marked is not visited again. -/
theorem again (marked : before v) : Marks succ before before [v] where
  kept _ marked := marked
  all x member := by
    rw [List.mem_singleton.mp member]
    exact marked
  closed _ marked fresh := absurd marked fresh
  reached _ marked fresh := absurd marked fresh

/-- A vertex is marked, and then all that it leads to is visited. -/
theorem enter (isMiddle : ∀ x, middle x ↔ before x ∨ x = v)
    (edges : Marks succ middle after (succ v)) : Marks succ before after [v] where
  kept x marked := edges.kept x ((isMiddle x).mpr (.inl marked))
  all x member := by
    rw [List.mem_singleton.mp member]
    exact edges.kept v ((isMiddle v).mpr (.inr rfl))
  closed x marked fresh := by
    by_cases same : x = v
    · subst same
      exact edges.all
    · apply edges.closed x marked
      rw [isMiddle]
      exact fun either => either.elim fresh same
  reached x marked fresh := by
    refine ⟨v, List.mem_singleton_self v, ?_⟩
    by_cases same : x = v
    · subst same
      exact .refl
    · have new : ¬middle x := by
        rw [isMiddle]
        exact fun either => either.elim fresh same
      obtain ⟨w, edge, reach⟩ := edges.reached x marked new
      exact .head edge reach

theorem append (first : Marks succ before middle vs) (second : Marks succ middle after ws) :
    Marks succ before after (vs ++ ws) where
  kept x marked := second.kept x (first.kept x marked)
  all x member := by
    rcases List.mem_append.mp member with isFirst | isSecond
    · exact second.kept x (first.all x isFirst)
    · exact second.all x isSecond
  closed x marked fresh y edge := by
    by_cases early : middle x
    · exact second.kept y (first.closed x early fresh y edge)
    · exact second.closed x marked early y edge
  reached x marked fresh := by
    by_cases early : middle x
    · obtain ⟨v, member, reach⟩ := first.reached x early fresh
      exact ⟨v, List.mem_append_left _ member, reach⟩
    · obtain ⟨v, member, reach⟩ := second.reached x marked early
      exact ⟨v, List.mem_append_right _ member, reach⟩

/-- Beginning with nothing, exactly what the visited vertices lead to is marked. -/
theorem exact (marks : Marks succ (fun _ => False) after vs) (x : V) :
    after x ↔ ∃ v ∈ vs, Reach succ v x := by
  constructor
  · intro marked
    exact marks.reached x marked id
  · rintro ⟨v, member, reach⟩
    exact reach.stays (fun y marked => marks.closed y marked id) (marks.all v member)

end Marks

/-! ### Rows of visits -/

section Rows

variable [Fintype V]

/-- The number of vertices that are not marked. -/
noncomputable def unmarked (marked : V → Prop) : Nat := by
  classical
  exact (Finset.univ.filter fun x => ¬marked x).card

theorem unmarked_le {before after : V → Prop} (kept : ∀ x, before x → after x) :
    unmarked after ≤ unmarked before := by
  classical
  unfold unmarked
  apply Finset.card_le_card
  intro x
  simp only [Finset.mem_filter, Finset.mem_univ, true_and]
  exact fun fresh marked => fresh (kept x marked)

theorem unmarked_lt {before after : V → Prop} (kept : ∀ x, before x → after x) {v : V}
    (fresh : ¬before v) (marked : after v) : unmarked after < unmarked before := by
  classical
  unfold unmarked
  apply Finset.card_lt_card
  rw [Finset.ssubset_iff_of_subset]
  · exact ⟨v, by simpa using fresh, by simpa using marked⟩
  · intro x
    simp only [Finset.mem_filter, Finset.mem_univ, true_and]
    exact fun fresh marked => fresh (kept x marked)

theorem unmarked_le_card (marked : V → Prop) : unmarked marked ≤ Fintype.card V := by
  classical
  unfold unmarked
  exact Finset.card_le_univ _

/-- A loop each turn of which makes some visits, as long as few enough vertices are left. -/
theorem foldlM_marks {σ ι : Type} {step : σ → ι → Option σ} (view : σ → V → Prop)
    (target : ι → List V) {bound : Nat} {items : List ι}
    (each : ∀ i ∈ items, ∀ s, unmarked (view s) ≤ bound →
      ∃ t, step s i = some t ∧ Marks succ (view s) (view t) (target i))
    {s : σ} (few : unmarked (view s) ≤ bound) :
    ∃ t, items.foldlM step s = some t ∧ Marks succ (view s) (view t) (items.flatMap target) := by
  induction items generalizing s with
  | nil => exact ⟨s, rfl, .nil⟩
  | cons i items ih =>
      obtain ⟨u, isStep, first⟩ := each i (List.mem_cons_self ..) s few
      obtain ⟨t, isFold, rest⟩ := ih
        (fun j member => each j (List.mem_cons_of_mem _ member))
        ((unmarked_le first.kept).trans few)
      refine ⟨t, ?_, ?_⟩
      · rw [List.foldlM_cons, isStep]
        exact isFold
      · rw [List.flatMap_cons]
        exact first.append rest

end Rows

end Bunx.Lib
