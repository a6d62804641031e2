/-
Module: Bunx.Lib.Resumable
Purpose: A scan of a growing buffer that keeps its state between calls: when its turns
  are resumable, how the input is cut does not matter.
Trusted boundary: none
Main exports: turns, feed, Alike, Resumable, Resumable.turns_alike, Resumable.turns_append,
  Resumable.feed_alike
-/

namespace Bunx.Lib

variable {α σ ρ τ : Type}

/-- Turns until one gives an answer; `hungry` when the fuel is used up. -/
def turns (hungry : ρ) (turn : σ → Option ρ × σ) : Nat → σ → ρ × σ
  | 0, s => (hungry, s)
  | fuel + 1, s =>
      match turn s with
      | (some answer, t) => (answer, t)
      | (none, t) => turns hungry turn fuel t

/-- Hand a growing buffer to `scan` as long as it answers `hungry`. -/
def feed [DecidableEq ρ] (hungry : ρ) (scan : σ → List α → ρ × σ) :
    σ → List α → List (List α) → (ρ × σ) × List α
  | s, buffer, [] => ((hungry, s), buffer)
  | s, buffer, chunk :: chunks =>
      let answer := scan s (buffer ++ chunk)
      if answer.1 = hungry then feed hungry scan answer.2 (buffer ++ chunk) chunks
      else (answer, buffer ++ chunk)

/-- Two answers that are the same as far as `view` shows. -/
def Alike (view : σ → τ) (x y : ρ × σ) : Prop := x.1 = y.1 ∧ view x.2 = view y.2

namespace Alike

variable {view : σ → τ} {x y z : ρ × σ}

theorem refl (x : ρ × σ) : Alike view x x := ⟨rfl, rfl⟩

theorem symm (alike : Alike view x y) : Alike view y x := ⟨alike.1.symm, alike.2.symm⟩

theorem trans (first : Alike view x y) (second : Alike view y z) : Alike view x z :=
  ⟨first.1.trans second.1, first.2.trans second.2⟩

end Alike

/-- What makes the turns of a scan resumable. A state may hold, beside what `view` shows,
hints about the buffer that `Valid` says are right. -/
structure Resumable (hungry : ρ) (turn : List α → σ → Option ρ × σ) (view : σ → τ)
    (Valid : List α → σ → Prop) (rank : List α → σ → Nat) : Prop where
  /-- What is right of a buffer is right of every longer one. -/
  valid_append : ∀ b more s, Valid b s → Valid (b ++ more) s
  /-- Only what `view` shows decides a turn. -/
  view_turn : ∀ b s t, Valid b s → Valid b t → view s = view t →
    (turn b s).1 = (turn b t).1 ∧ view (turn b s).2 = view (turn b t).2
  /-- A turn that goes on keeps the state valid. -/
  valid_next : ∀ b s, Valid b s → (turn b s).1 = none → Valid b (turn b s).2
  /-- A turn that goes on makes progress. -/
  rank_next : ∀ b s, Valid b s → (turn b s).1 = none → rank b (turn b s).2 < rank b s
  /-- A turn that lacks input changes hints only, to right ones. -/
  hungry_turn : ∀ b s, Valid b s → (turn b s).1 = some hungry →
    Valid b (turn b s).2 ∧ view (turn b s).2 = view s
  /-- A turn that does not lack input is the same on every longer buffer. -/
  turn_append : ∀ b more s, Valid b s → (turn b s).1 ≠ some hungry →
    turn (b ++ more) s = turn b s

theorem turns_some {hungry answer : ρ} {turn : σ → Option ρ × σ} {s t : σ} {fuel : Nat}
    (stops : turn s = (some answer, t)) : turns hungry turn (fuel + 1) s = (answer, t) := by
  simp only [turns, stops]

theorem turns_none {hungry : ρ} {turn : σ → Option ρ × σ} {s t : σ} {fuel : Nat}
    (goesOn : turn s = (none, t)) :
    turns hungry turn (fuel + 1) s = turns hungry turn fuel t := by
  simp only [turns, goesOn]

namespace Resumable

variable {hungry : ρ} {turn : List α → σ → Option ρ × σ} {view : σ → τ}
  {Valid : List α → σ → Prop} {rank : List α → σ → Nat}

/-- States that look the same give answers that look the same, whatever the fuel. -/
theorem turns_alike (resumable : Resumable hungry turn view Valid rank) (b : List α)
    {n m : Nat} {s t : σ} (validLeft : Valid b s) (validRight : Valid b t)
    (same : view s = view t) (enoughLeft : rank b s < n) (enoughRight : rank b t < m) :
    Alike view (turns hungry (turn b) n s) (turns hungry (turn b) m t) := by
  induction n generalizing m s t with
  | zero => exact absurd enoughLeft (Nat.not_lt_zero _)
  | succ n ih =>
      cases m with
      | zero => exact absurd enoughRight (Nat.not_lt_zero _)
      | succ m =>
          obtain ⟨sameAnswer, sameView⟩ := resumable.view_turn b s t validLeft validRight same
          have nextLeft := resumable.valid_next b s validLeft
          have nextRight := resumable.valid_next b t validRight
          have lessLeft := resumable.rank_next b s validLeft
          have lessRight := resumable.rank_next b t validRight
          rcases left : turn b s with ⟨answer | answer, s'⟩ <;>
            rcases right : turn b t with ⟨answer' | answer', t'⟩ <;>
            rw [left, right] at sameAnswer sameView <;> rw [left] at nextLeft lessLeft <;>
            rw [right] at nextRight lessRight
          · rw [turns_none left, turns_none right]
            exact ih (nextLeft rfl) (nextRight rfl) sameView
              (Nat.lt_of_lt_of_le (lessLeft rfl) (Nat.le_of_lt_succ enoughLeft))
              (Nat.lt_of_lt_of_le (lessRight rfl) (Nat.le_of_lt_succ enoughRight))
          · cases sameAnswer
          · cases sameAnswer
          · rw [turns_some left, turns_some right]
            exact ⟨Option.some.inj sameAnswer, sameView⟩

/-- More input after an answer: one that was not `hungry` stands, and after a `hungry` one
the scan goes on from the state it left as it would from the start. -/
theorem turns_append (resumable : Resumable hungry turn view Valid rank) (b more : List α)
    {n m : Nat} {s : σ} (valid : Valid b s) (enough : rank b s < n)
    (enoughLonger : rank (b ++ more) s < m) :
    ((turns hungry (turn b) n s).1 ≠ hungry →
      Alike view (turns hungry (turn (b ++ more)) m s) (turns hungry (turn b) n s)) ∧
    ((turns hungry (turn b) n s).1 = hungry →
      Valid b (turns hungry (turn b) n s).2 ∧
      ∀ k, rank (b ++ more) (turns hungry (turn b) n s).2 < k →
        Alike view (turns hungry (turn (b ++ more)) m s)
          (turns hungry (turn (b ++ more)) k (turns hungry (turn b) n s).2)) := by
  induction n generalizing m s with
  | zero => exact absurd enough (Nat.not_lt_zero _)
  | succ n ih =>
      have validLonger := resumable.valid_append b more s valid
      have next := resumable.valid_next b s valid
      have less := resumable.rank_next b s valid
      have lessLonger := resumable.rank_next (b ++ more) s validLonger
      have hungryTurn := resumable.hungry_turn b s valid
      have longer := resumable.turn_append b more s valid
      rcases step : turn b s with ⟨answer | answer, t⟩ <;>
        rw [step] at next less hungryTurn longer
      · -- The turn goes on: it is the same turn on the longer buffer.
        have stepLonger : turn (b ++ more) s = (none, t) := longer (by simp)
        cases m with
        | zero => exact absurd enoughLonger (Nat.not_lt_zero _)
        | succ m =>
            rw [stepLonger] at lessLonger
            rw [turns_none step, turns_none stepLonger]
            exact ih (next rfl)
              (Nat.lt_of_lt_of_le (less rfl) (Nat.le_of_lt_succ enough))
              (Nat.lt_of_lt_of_le (lessLonger rfl) (Nat.le_of_lt_succ enoughLonger))
      · rw [turns_some step]
        constructor
        · intro fed
          have stepLonger : turn (b ++ more) s = (some answer, t) :=
            longer fun starved => fed (Option.some.inj starved)
          cases m with
          | zero => exact absurd enoughLonger (Nat.not_lt_zero _)
          | succ m =>
              rw [turns_some stepLonger]
              exact Alike.refl _
        · intro starved
          obtain ⟨validAfter, sameView⟩ := hungryTurn (congrArg some starved)
          constructor
          · exact validAfter
          · intro k enoughAfter
            exact resumable.turns_alike (b ++ more) validLonger
              (resumable.valid_append b more t validAfter) sameView.symm enoughLonger
              enoughAfter

variable [DecidableEq ρ] {fuel : List α → Nat}

/-- The scan with enough fuel for every valid state. -/
abbrev scan (hungry : ρ) (turn : List α → σ → Option ρ × σ) (fuel : List α → Nat) (s : σ)
    (b : List α) : ρ × σ := turns hungry (turn b) (fuel b) s

/-- Cutting does not matter: the answer to a buffer handed over in pieces is the answer to
the pieces read so far, and the answer to all of them at once. -/
theorem feed_alike (resumable : Resumable hungry turn view Valid rank)
    (enough : ∀ b s, Valid b s → rank b s < fuel b) (chunks : List (List α))
    {b : List α} {s : σ} (valid : Valid b s)
    (waiting : Alike view (scan hungry turn fuel s b) (hungry, s)) :
    ∃ handed kept, chunks.flatten = handed ++ kept ∧
      (feed hungry (scan hungry turn fuel) s b chunks).2 = b ++ handed ∧
      Alike view (feed hungry (scan hungry turn fuel) s b chunks).1
        (scan hungry turn fuel s (b ++ handed)) ∧
      Alike view (feed hungry (scan hungry turn fuel) s b chunks).1
        (scan hungry turn fuel s (b ++ chunks.flatten)) := by
  induction chunks generalizing b s with
  | nil =>
      refine ⟨[], [], rfl, ?_, ?_, ?_⟩
      · exact (List.append_nil b).symm
      · rw [List.append_nil]
        exact waiting.symm
      · rw [List.flatten_nil, List.append_nil]
        exact waiting.symm
  | cons chunk chunks ih =>
      have validChunk := resumable.valid_append b chunk s valid
      have after := fun more => resumable.turns_append (b ++ chunk) more validChunk
        (enough _ s validChunk) (enough _ s (resumable.valid_append _ more s validChunk))
      by_cases starved : (scan hungry turn fuel s (b ++ chunk)).1 = hungry
      · obtain ⟨validAfter, again⟩ := (after []).2 starved
        have resumed : ∀ more,
            Alike view (scan hungry turn fuel s (b ++ chunk ++ more))
              (scan hungry turn fuel (scan hungry turn fuel s (b ++ chunk)).2
                (b ++ chunk ++ more)) := fun more =>
          ((after more).2 starved).2 _
            (enough _ _ (resumable.valid_append _ more _ validAfter))
        have waitingAfter := resumed []
        rw [List.append_nil] at waitingAfter
        obtain ⟨handed, kept, split, buffer, asHanded, asAll⟩ :=
          ih validAfter
            (waitingAfter.symm.trans ⟨starved, rfl⟩)
        refine ⟨chunk ++ handed, kept, ?_, ?_, ?_, ?_⟩
        · rw [List.flatten_cons, split, List.append_assoc]
        · rw [feed, if_pos starved, buffer, List.append_assoc]
        · rw [feed, if_pos starved, ← List.append_assoc]
          exact asHanded.trans (resumed handed).symm
        · rw [feed, if_pos starved, List.flatten_cons, ← List.append_assoc]
          exact asAll.trans (resumed chunks.flatten).symm
      · refine ⟨chunk, chunks.flatten, List.flatten_cons, ?_, ?_, ?_⟩
        · rw [feed, if_neg starved]
        · rw [feed, if_neg starved]
          exact Alike.refl _
        · rw [feed, if_neg starved, List.flatten_cons, ← List.append_assoc]
          exact ((after chunks.flatten).1 starved).symm

end Resumable

end Bunx.Lib
