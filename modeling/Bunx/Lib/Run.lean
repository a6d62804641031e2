/-
Module: Bunx.Lib.Run
Purpose: Runs of a transition relation, runs whose steps all meet a guard, the
  runs of a system that has at most one next state, and loops.
Trusted boundary: none
Main exports: Run, GuardedRun, Run.invariant, GuardedRun.invariant,
  GuardedRun.toRun, holdsAlong, Run.of_holdsAlong, loop, loop_ends, loop_mono, foldlM_mono,
  foldlM_rel
-/
import Mathlib.Logic.Relation

namespace Bunx.Lib

variable {σ : Type*}

/-- `Run step s t`: finitely many steps lead from `s` to `t`. -/
abbrev Run (step : σ → σ → Prop) : σ → σ → Prop := Relation.ReflTransGen step

/-- A run every step of which meets the guard. -/
abbrev GuardedRun (step guard : σ → σ → Prop) : σ → σ → Prop :=
  Run fun s t => step s t ∧ guard s t

/-- What holds at the start and is kept by every step holds in every state of
a run. -/
theorem Run.invariant {step : σ → σ → Prop} {start finish : σ} (I : σ → Prop)
    (run : Run step start finish) (initial : I start)
    (kept : ∀ s t, step s t → I s → I t) : I finish := by
  induction run with
  | refl => exact initial
  | tail _ last ih => exact kept _ _ last ih

/-- A guarded run is a run. -/
theorem GuardedRun.toRun {step guard : σ → σ → Prop} {start finish : σ}
    (run : GuardedRun step guard start finish) : Run step start finish := by
  induction run with
  | refl => exact .refl
  | tail _ last ih => exact ih.tail last.1

/-- A run is guarded when every state it can visit meets the guard. -/
theorem GuardedRun.of_run {step : σ → σ → Prop} {holds : σ → Prop}
    {start finish : σ} (run : Run step start finish)
    (meets : ∀ s, Run step start s → holds s) :
    GuardedRun step (fun s _ => holds s) start finish := by
  induction run with
  | refl => exact .refl
  | tail before last ih =>
      exact ih.tail ⟨last, meets _ before⟩

/-- The invariant rule of a guarded run: every step may use the guard and an
invariant `J` already known along all runs. -/
theorem GuardedRun.invariant {step guard : σ → σ → Prop} {start finish : σ}
    (I J : σ → Prop) (run : GuardedRun step guard start finish)
    (known : ∀ s, Run step start s → J s) (initial : I start)
    (kept : ∀ s t, step s t → guard s t → J s → I s → I t) : I finish := by
  induction run with
  | refl => exact initial
  | tail before last ih =>
      exact kept _ _ last.1 last.2 (known _ (GuardedRun.toRun before))
        ih

/-- Does `holds` hold of a state and of all that follow, of which there are
fewer than the given number? -/
def holdsAlong (next : σ → Option σ) (holds : σ → Bool) : Nat → σ → Bool
  | 0, _ => false
  | n + 1, s => holds s &&
      match next s with
      | none => true
      | some t => holdsAlong next holds n t

/-- When `next` computes every step, following it covers every run. -/
theorem Run.of_holdsAlong {step : σ → σ → Prop} {next : σ → Option σ}
    (computes : ∀ s t, step s t → next s = some t) {holds : σ → Bool} {n : Nat}
    {s t : σ} (along : holdsAlong next holds n s = true) (run : Run step s t) :
    holds t = true := by
  induction n generalizing s with
  | zero => cases along
  | succ n ih =>
      rw [holdsAlong, Bool.and_eq_true] at along
      rcases Relation.ReflTransGen.cases_head run with rfl | ⟨u, first, rest⟩
      · exact along.1
      · have after := along.2
        rw [computes s u first] at after
        exact ih after rest

/-- Turns of a loop, at most so many, until `turn` finds nothing to do. -/
def loop (turn : σ → Option σ) : Nat → σ → Option σ
  | 0, _ => none
  | fuel + 1, s =>
      match turn s with
      | none => some s
      | some t => loop turn fuel t

/-- A loop that ended does not need the turns that are left. -/
theorem loop_mono {turn : σ → Option σ} {fuel more : Nat} (le : fuel ≤ more) {s t : σ}
    (ended : loop turn fuel s = some t) : loop turn more s = some t := by
  induction fuel generalizing more s with
  | zero => cases ended
  | succ fuel ih =>
      obtain ⟨more, rfl⟩ := Nat.exists_eq_succ_of_ne_zero (Nat.ne_zero_of_lt le)
      rw [loop] at ended ⊢
      cases next : turn s with
      | none =>
          rw [next] at ended
          exact ended
      | some u =>
          rw [next] at ended
          exact ih (Nat.le_of_succ_le_succ le) ended

/-- Steps that succeed with less succeed with more. -/
theorem foldlM_mono {α : Type*} {f g : σ → α → Option σ}
    (mono : ∀ s a t, f s a = some t → g s a = some t) {items : List α} {s t : σ}
    (isFold : items.foldlM f s = some t) : items.foldlM g s = some t := by
  induction items generalizing s with
  | nil => exact isFold
  | cons a items ih =>
      rw [List.foldlM_cons] at isFold ⊢
      cases next : f s a with
      | none =>
          rw [next] at isFold
          cases isFold
      | some u =>
          rw [next] at isFold
          rw [mono s a u next]
          exact ih isFold

/-- What every step does, a whole row of steps does. -/
theorem foldlM_rel {α : Type*} {f : σ → α → Option σ} {R : σ → σ → Prop}
    (refl : ∀ s, R s s) (trans : ∀ s t u, R s t → R t u → R s u)
    (each : ∀ s a t, f s a = some t → R s t) {items : List α} {s t : σ}
    (isFold : items.foldlM f s = some t) : R s t := by
  induction items generalizing s with
  | nil =>
      cases isFold
      exact refl _
  | cons a items ih =>
      rw [List.foldlM_cons] at isFold
      cases next : f s a with
      | none =>
          rw [next] at isFold
          cases isFold
      | some u =>
          rw [next] at isFold
          exact trans s u t (each s a u next) (ih isFold)

/-- The rule of a loop: turns that keep an invariant and make a measure smaller come to an
end, where the invariant holds and nothing is left to do. -/
theorem loop_ends {turn : σ → Option σ} (I : σ → Prop) (measure : σ → Nat)
    (kept : ∀ s t, turn s = some t → I s → I t ∧ measure t < measure s) {s : σ} (initial : I s)
    {fuel : Nat} (enough : measure s < fuel) :
    ∃ t, loop turn fuel s = some t ∧ turn t = none ∧ I t := by
  induction fuel generalizing s with
  | zero => exact absurd enough (Nat.not_lt_zero _)
  | succ fuel ih =>
      rw [loop]
      cases next : turn s with
      | none => exact ⟨s, rfl, next, initial⟩
      | some t =>
          obtain ⟨after, less⟩ := kept s t next initial
          exact ih after (by omega)

end Bunx.Lib
