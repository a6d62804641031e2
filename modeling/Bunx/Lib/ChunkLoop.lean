/-
Module: Bunx.Lib.ChunkLoop
Purpose: A loop that is run on each chunk of an input and keeps a state between the
  chunks: when its turns can be resumed, how the input is cut does not matter.
Trusted boundary: none
Main exports: Turn, Outcome, ChunkLoop, handle, feed, Guarded, Lawful, Lawful.handle_some,
  Lawful.handle_append, Lawful.feed_flatten, Finish, Gathers, Lawful.of_gathers
-/

namespace Bunx.Lib

variable {π σ ρ α : Type}

/-- How a turn of the loop ends. -/
inductive Turn (σ ρ α : Type) where
  /-- Another turn follows, on what is left of the chunk. -/
  | goOn (next : σ) (rest : List α)
  /-- The loop waits for the next chunk. -/
  | leave (next : σ)
  /-- All further input is ignored. -/
  | stop (result : ρ)
  /-- The program aborts. -/
  | panic

/-- What a chunk, or all chunks so far, have led to. -/
inductive Outcome (π ρ : Type) where
  | left (kept : π)
  | stopped (result : ρ)

/-- A loop, the state it starts a chunk in, and what it keeps of the state it leaves. -/
structure ChunkLoop (π σ ρ α : Type) where
  load : π → σ
  save : σ → π
  turn : σ → List α → Turn σ ρ α
  /-- How many turns a chunk can take at most. -/
  turns : List α → Nat

namespace ChunkLoop

/-- At most so many turns on a chunk; nothing is returned when they do not suffice. -/
def run (loop : ChunkLoop π σ ρ α) : Nat → σ → List α → Option (Outcome π ρ)
  | 0, _, _ => none
  | fuel + 1, s, chunk =>
      match loop.turn s chunk with
      | .goOn next rest => run loop fuel next rest
      | .leave next => some (.left (loop.save next))
      | .stop result => some (.stopped result)
      | .panic => none

/-- One chunk. -/
def handle (loop : ChunkLoop π σ ρ α) (kept : π) (chunk : List α) : Option (Outcome π ρ) :=
  loop.run (loop.turns chunk) (loop.load kept) chunk

/-- The chunks one after the other. -/
def feed (loop : ChunkLoop π σ ρ α) : Outcome π ρ → List (List α) → Option (Outcome π ρ)
  | outcome, [] => some outcome
  | .stopped result, _ :: _ => some (.stopped result)
  | .left kept, chunk :: chunks =>
      match loop.handle kept chunk with
      | none => none
      | some outcome => feed loop outcome chunks

/-- Every chunk is handled from a kept state with the property. -/
def Guarded (loop : ChunkLoop π σ ρ α) (Good : π → Prop) :
    Outcome π ρ → List (List α) → Prop
  | _, [] => True
  | .stopped _, _ :: _ => True
  | .left kept, chunk :: chunks =>
      Good kept ∧ ∀ outcome, loop.handle kept chunk = some outcome →
        Guarded loop Good outcome chunks

/-- What every turn keeps, the run keeps. -/
theorem run_keeps (loop : ChunkLoop π σ ρ α) (Keeps : σ → Prop) (Ends : ρ → Prop)
    (turns : ∀ s chunk, Keeps s →
      (∀ t rest, loop.turn s chunk = .goOn t rest → Keeps t) ∧
      (∀ t, loop.turn s chunk = .leave t → Keeps t) ∧
      (∀ result, loop.turn s chunk = .stop result → Ends result))
    {n : Nat} {s : σ} {chunk : List α} {outcome : Outcome π ρ} (keeps : Keeps s)
    (runs : loop.run n s chunk = some outcome) :
    (∃ t, Keeps t ∧ outcome = .left (loop.save t)) ∨
      ∃ result, Ends result ∧ outcome = .stopped result := by
  induction n generalizing s chunk with
  | zero => cases runs
  | succ n ih =>
      obtain ⟨goesOn, leaves, stops⟩ := turns s chunk keeps
      rw [run] at runs
      cases step : loop.turn s chunk with
      | goOn t rest =>
          rw [step] at runs
          exact ih (goesOn t rest step) runs
      | leave t =>
          rw [step] at runs
          cases runs
          exact .inl ⟨t, leaves t step, rfl⟩
      | stop result =>
          rw [step] at runs
          cases runs
          exact .inr ⟨result, stops result step, rfl⟩
      | panic =>
          rw [step] at runs
          cases runs

/-- Two turns that end in the same way, as far as what is kept shows. -/
inductive Alike (loop : ChunkLoop π σ ρ α) : Turn σ ρ α → Turn σ ρ α → Prop where
  | goOn {s t : σ} (rest : List α) (same : loop.save s = loop.save t) :
      Alike loop (.goOn s rest) (.goOn t rest)
  | leave {s t : σ} (same : loop.save s = loop.save t) :
      Alike loop (.leave s) (.leave t)
  | stop (result : ρ) : Alike loop (.stop result) (.stop result)

/-- What makes the turns of a loop resumable, at the kept states that are `Good`. -/
structure Lawful (loop : ChunkLoop π σ ρ α) (Valid : σ → List α → Prop) (Good : π → Prop)
    (rank : σ → List α → Nat) : Prop where
  save_load : ∀ kept, loop.save (loop.load kept) = kept
  valid_append : ∀ {s chunk} more, Valid s chunk → Valid s (chunk ++ more)
  valid_next : ∀ {s chunk t rest}, Valid s chunk → loop.turn s chunk = .goOn t rest →
    Valid t rest
  /-- A state that was left can take the next chunk. -/
  valid_left : ∀ {s chunk t more}, Valid s chunk → loop.turn s chunk = .leave t →
    more ≠ [] → Valid t more
  valid_load : ∀ {s chunk}, Valid s chunk → Valid (loop.load (loop.save s)) chunk
  no_panic : ∀ {s chunk}, Valid s chunk → loop.turn s chunk ≠ .panic
  /-- A turn that goes on makes progress. -/
  rank_next : ∀ {s chunk t rest}, Valid s chunk → loop.turn s chunk = .goOn t rest →
    rank t rest < rank s chunk
  enough : ∀ s chunk, rank s chunk < loop.turns chunk
  /-- Only what is kept decides a turn. -/
  turn_alike : ∀ {s t chunk}, Valid s chunk → Valid t chunk → loop.save s = loop.save t →
    Alike loop (loop.turn s chunk) (loop.turn t chunk)
  /-- A turn that goes on does so on every longer chunk. -/
  goOn_append : ∀ {s chunk t rest} more, Valid s chunk → loop.turn s chunk = .goOn t rest →
    loop.turn s (chunk ++ more) = .goOn t (rest ++ more)
  /-- A turn that stops does so on every longer chunk. -/
  stop_append : ∀ {s chunk result} more, Valid s chunk →
    loop.turn s chunk = .stop result → loop.turn s (chunk ++ more) = .stop result
  /-- A turn that waits is, on a longer chunk, either finished where it waited or what the
  next turn does there. -/
  leave_append : ∀ {s chunk t more}, Valid s chunk → loop.turn s chunk = .leave t →
    Good (loop.save t) → more ≠ [] →
    loop.turn s (chunk ++ more) = .goOn t more ∨
      loop.turn s (chunk ++ more) = loop.turn t more

namespace Lawful

variable {loop : ChunkLoop π σ ρ α} {Valid : σ → List α → Prop} {Good : π → Prop}
  {rank : σ → List α → Nat}

/-- With enough turns a chunk is dealt with. -/
theorem run_some (lawful : Lawful loop Valid Good rank) {n : Nat} {s : σ} {chunk : List α}
    (valid : Valid s chunk) (enough : rank s chunk < n) :
    ∃ outcome, loop.run n s chunk = some outcome := by
  induction n generalizing s chunk with
  | zero => exact absurd enough (Nat.not_lt_zero _)
  | succ n ih =>
      rw [run]
      cases step : loop.turn s chunk with
      | goOn t rest =>
          have less := lawful.rank_next valid step
          exact ih (lawful.valid_next valid step) (by omega)
      | leave t => exact ⟨_, rfl⟩
      | stop result => exact ⟨_, rfl⟩
      | panic => exact absurd step (lawful.no_panic valid)

/-- States that keep the same lead to the same, whatever the number of turns. -/
theorem run_alike (lawful : Lawful loop Valid Good rank) {n m : Nat} {s t : σ}
    {chunk : List α} (validLeft : Valid s chunk) (validRight : Valid t chunk)
    (same : loop.save s = loop.save t) (enoughLeft : rank s chunk < n)
    (enoughRight : rank t chunk < m) : loop.run n s chunk = loop.run m t chunk := by
  induction n generalizing m s t chunk with
  | zero => exact absurd enoughLeft (Nat.not_lt_zero _)
  | succ n ih =>
      cases m with
      | zero => exact absurd enoughRight (Nat.not_lt_zero _)
      | succ m =>
          have alike := lawful.turn_alike validLeft validRight same
          rw [run, run]
          rcases left : loop.turn s chunk with ⟨s', rest⟩ | s' | result | _ <;>
            rcases right : loop.turn t chunk with ⟨t', rest'⟩ | t' | result' | _ <;>
            rw [left, right] at alike <;> cases alike
          · rename_i sameNext
            have lessLeft := lawful.rank_next validLeft left
            have lessRight := lawful.rank_next validRight right
            exact ih (lawful.valid_next validLeft left)
              (lawful.valid_next validRight right) sameNext (by omega) (by omega)
          · rename_i sameNext
            exact congrArg (fun kept => some (Outcome.left kept)) sameNext
          · rfl

/-- A run on a longer chunk is the run on the chunk, and then on what is kept of it. -/
theorem run_append (lawful : Lawful loop Valid Good rank) {n m : Nat} {s : σ}
    {chunk more : List α} (valid : Valid s chunk) (nonempty : more ≠ [])
    (enough : rank s chunk < n) (enoughLonger : rank s (chunk ++ more) < m) :
    (∀ result, loop.run n s chunk = some (.stopped result) →
      loop.run m s (chunk ++ more) = some (.stopped result)) ∧
    (∀ kept, loop.run n s chunk = some (.left kept) → Valid (loop.load kept) more ∧
      (Good kept → loop.run m s (chunk ++ more) = loop.handle kept more)) := by
  induction n generalizing m s chunk with
  | zero => exact absurd enough (Nat.not_lt_zero _)
  | succ n ih =>
      cases m with
      | zero => exact absurd enoughLonger (Nat.not_lt_zero _)
      | succ m =>
          have validLonger := lawful.valid_append more valid
          cases step : loop.turn s chunk with
          | goOn t rest =>
              have longer := lawful.goOn_append more valid step
              have less := lawful.rank_next valid step
              have lessLonger := lawful.rank_next validLonger longer
              simp only [run, step, longer]
              exact ih (lawful.valid_next valid step) (by omega) (by omega)
          | stop result =>
              have longer := lawful.stop_append more valid step
              simp only [run, step, longer]
              constructor
              · intro other same
                exact same
              · intro kept same
                cases same
          | leave t =>
              simp only [run, step]
              constructor
              · intro result same
                cases same
              · intro kept same
                cases same
                have picked := lawful.valid_left valid step nonempty
                have loaded := lawful.valid_load picked
                have sameKept : loop.save t = loop.save (loop.load (loop.save t)) :=
                  (lawful.save_load _).symm
                refine ⟨loaded, fun good => ?_⟩
                rcases lawful.leave_append valid step good nonempty with longer | longer
                · -- The turn was complete: the loop goes on where it was left.
                  have less := lawful.rank_next validLonger longer
                  rw [longer]
                  exact lawful.run_alike picked loaded sameKept (by omega) (lawful.enough _ _)
                · -- The turn lacked input: the next turn takes it up.
                  refine Eq.trans ?_ (lawful.run_alike picked loaded sameKept
                    (Nat.lt_succ_self _) (lawful.enough _ _))
                  rw [longer, run]
                  cases next : loop.turn t more with
                  | goOn u rest =>
                      have lessLonger := lawful.rank_next validLonger (longer.trans next)
                      have lessNext := lawful.rank_next picked next
                      have validNext := lawful.valid_next picked next
                      exact lawful.run_alike validNext validNext rfl (by omega) lessNext
                  | leave u => rfl
                  | stop result => rfl
                  | panic => rfl
          | panic => exact absurd step (lawful.no_panic valid)

/-- A kept state from which a chunk can be handled. -/
abbrev Ready (loop : ChunkLoop π σ ρ α) (Valid : σ → List α → Prop) (kept : π) : Prop :=
  ∀ chunk, chunk ≠ [] → Valid (loop.load kept) chunk

theorem handle_some (lawful : Lawful loop Valid Good rank) {kept : π} {chunk : List α}
    (ready : Ready loop Valid kept) (nonempty : chunk ≠ []) :
    ∃ outcome, loop.handle kept chunk = some outcome :=
  lawful.run_some (ready chunk nonempty) (lawful.enough _ _)

/-- What is kept of a chunk is ready for the next. -/
theorem handle_ready (lawful : Lawful loop Valid Good rank) {kept after : π}
    {chunk : List α} (ready : Ready loop Valid kept) (nonempty : chunk ≠ [])
    (handled : loop.handle kept chunk = some (.left after)) : Ready loop Valid after := by
  intro more someMore
  exact ((lawful.run_append (ready chunk nonempty) someMore (lawful.enough _ _)
    (lawful.enough _ _)).2 after handled).1

/-- A chunk in two pieces. -/
theorem handle_append (lawful : Lawful loop Valid Good rank) {kept : π}
    {chunk more : List α} {outcome : Outcome π ρ} (ready : Ready loop Valid kept)
    (nonempty : chunk ≠ []) (someMore : more ≠ [])
    (handled : loop.handle kept chunk = some outcome)
    (good : ∀ after, outcome = .left after → Good after) :
    loop.handle kept (chunk ++ more) = loop.feed outcome [more] := by
  obtain ⟨stops, leaves⟩ := lawful.run_append (ready chunk nonempty) someMore
    (lawful.enough _ chunk) (lawful.enough _ (chunk ++ more))
  cases outcome with
  | stopped result => exact stops result handled
  | left after =>
      refine ((leaves after handled).2 (good after rfl)).trans ?_
      rw [feed]
      cases loop.handle after more with
      | none => rfl
      | some outcome => rfl

/-- Cutting does not matter, as long as every later chunk is handled from a good state. -/
theorem feed_flatten (lawful : Lawful loop Valid Good rank) (chunks : List (List α))
    {kept : π} {chunk : List α} (ready : Ready loop Valid kept) (nonempty : chunk ≠ [])
    (someChunks : ∀ c ∈ chunks, c ≠ [])
    (guarded : ∀ outcome, loop.handle kept chunk = some outcome →
      loop.Guarded Good outcome chunks) :
    loop.feed (.left kept) (chunk :: chunks) =
      loop.handle kept (chunk ++ chunks.flatten) := by
  induction chunks generalizing kept chunk with
  | nil =>
      rw [List.flatten_nil, List.append_nil, feed]
      cases loop.handle kept chunk with
      | none => rfl
      | some outcome => rfl
  | cons next chunks ih =>
      obtain ⟨outcome, handled⟩ := lawful.handle_some ready nonempty
      have someNext : next ≠ [] := someChunks next List.mem_cons_self
      have guardedNext := guarded outcome handled
      have someMore : next ++ chunks.flatten ≠ [] := List.append_ne_nil_of_left_ne_nil someNext _
      rw [feed, handled, List.flatten_cons]
      cases outcome with
      | stopped result =>
          rw [lawful.handle_append ready nonempty someMore handled fun _ same => by cases same]
          rfl
      | left after =>
          obtain ⟨good, guardedRest⟩ := guardedNext
          have same := lawful.handle_append ready nonempty someMore handled
            fun _ same => by cases same; exact good
          rw [same]
          refine (ih (lawful.handle_ready ready nonempty handled) someNext
            (fun c member => someChunks c (List.mem_cons_of_mem _ member)) guardedRest).trans ?_
          rw [feed]
          cases loop.handle after (next ++ chunks.flatten) with
          | none => rfl
          | some outcome => rfl

end Lawful

/-! ### Turns that gather a part of the input -/

/-- What follows when the part is there; `wait` goes on only when more of the chunk is left. -/
inductive Finish (σ ρ : Type) where
  | stop (result : ρ)
  | pass (next : σ)
  | wait (next : σ)

def Finish.turn (rest : List α) : Finish σ ρ → Turn σ ρ α
  | .stop result => .stop result
  | .pass next => .goOn next rest
  | .wait next => if rest.isEmpty then .leave next else .goOn next rest

theorem Alike.finish (loop : ChunkLoop π σ ρ α) (rest : List α) (finish : Finish σ ρ) :
    Alike loop (finish.turn rest) (finish.turn rest) := by
  cases finish with
  | stop result => exact .stop result
  | pass next => exact .goOn rest rfl
  | wait next =>
      cases rest with
      | nil => exact .leave rfl
      | cons item rest => exact .goOn _ rfl

/-- The turn keeps what comes until it has gathered `n` items, and is then done with them. -/
structure Gathers (loop : ChunkLoop π σ ρ α) (Valid : σ → List α → Prop) (Good : π → Prop)
    (rank : σ → List α → Nat) (s : σ) (n : Nat) (keep : List α → σ)
    (done : List α → Finish σ ρ) : Prop where
  turn_eq : ∀ {chunk}, Valid s chunk → loop.turn s chunk =
    if chunk.length < n then .leave (keep chunk)
    else (done (chunk.take n)).turn (chunk.drop n)
  /-- What was kept is taken up as if it had come with the next chunk. -/
  resumes : ∀ {chunk more}, Valid s chunk → chunk.length < n → more ≠ [] →
    Good (loop.save (keep chunk)) → loop.turn (keep chunk) more = loop.turn s (chunk ++ more)
  valid_keep : ∀ {chunk more}, Valid s chunk → chunk.length < n → more ≠ [] →
    Valid (keep chunk) more
  next_pass : ∀ {chunk t}, Valid s chunk → n ≤ chunk.length → done (chunk.take n) = .pass t →
    Valid t (chunk.drop n) ∧ rank t (chunk.drop n) < rank s chunk
  next_wait : ∀ {chunk t}, Valid s chunk → n ≤ chunk.length → done (chunk.take n) = .wait t →
    (∀ more, more ≠ [] → Valid t more) ∧ rank t (chunk.drop n) < rank s chunk

namespace Gathers

variable {loop : ChunkLoop π σ ρ α} {Valid : σ → List α → Prop} {Good : π → Prop}
  {rank : σ → List α → Nat} {s : σ} {n : Nat} {keep : List α → σ}
  {done : List α → Finish σ ρ}

/-- A turn either keeps its chunk or is done. -/
theorem cases (gathers : Gathers loop Valid Good rank s n keep done) {chunk : List α}
    (valid : Valid s chunk) :
    (chunk.length < n ∧ loop.turn s chunk = .leave (keep chunk)) ∨
      (n ≤ chunk.length ∧
        loop.turn s chunk = (done (chunk.take n)).turn (chunk.drop n)) := by
  have same := gathers.turn_eq valid
  by_cases short : chunk.length < n
  · rw [if_pos short] at same
    exact .inl ⟨short, same⟩
  · rw [if_neg short] at same
    exact .inr ⟨Nat.le_of_not_lt short, same⟩

/-- A turn that is done is so on every longer chunk. -/
theorem done_append (gathers : Gathers loop Valid Good rank s n keep done)
    {chunk more : List α} (valid : Valid s (chunk ++ more)) (long : n ≤ chunk.length) :
    loop.turn s (chunk ++ more) = (done (chunk.take n)).turn (chunk.drop n ++ more) := by
  rw [gathers.turn_eq valid, if_neg (by rw [List.length_append]; omega),
    List.take_append_of_le_length long, List.drop_append_of_le_length long]

end Gathers

/-- A loop is lawful when its turns gather their input. -/
theorem Lawful.of_gathers {loop : ChunkLoop π σ ρ α} {Valid : σ → List α → Prop}
    {Good : π → Prop} {rank : σ → List α → Nat}
    (save_load : ∀ kept, loop.save (loop.load kept) = kept)
    (valid_append : ∀ {s chunk} more, Valid s chunk → Valid s (chunk ++ more))
    (valid_load : ∀ {s chunk}, Valid s chunk → Valid (loop.load (loop.save s)) chunk)
    (enough : ∀ s chunk, rank s chunk < loop.turns chunk)
    (turn_alike : ∀ {s t chunk}, Valid s chunk → Valid t chunk → loop.save s = loop.save t →
      Alike loop (loop.turn s chunk) (loop.turn t chunk))
    (gathers : ∀ {s chunk}, Valid s chunk → ∃ n keep done,
      Gathers loop Valid Good rank s n keep done) :
    Lawful loop Valid Good rank where
  save_load := save_load
  valid_append := valid_append
  valid_load := valid_load
  enough := enough
  turn_alike := turn_alike
  valid_next := by
    intro s chunk t rest valid step
    obtain ⟨n, keep, done, gathers⟩ := gathers valid
    rcases gathers.cases valid with ⟨_, kept⟩ | ⟨long, finished⟩
    · rw [kept] at step
      cases step
    · rw [finished] at step
      cases finish : done (chunk.take n) with
      | stop result => rw [finish] at step; cases step
      | pass next =>
          rw [finish] at step
          cases step
          exact (gathers.next_pass valid long finish).1
      | wait next =>
          rw [finish, Finish.turn] at step
          split at step
          · cases step
          · rename_i someRest
            cases step
            refine (gathers.next_wait valid long finish).1 _ fun nothing => someRest ?_
            rw [nothing]
            rfl
  valid_left := by
    intro s chunk t more valid step nonempty
    obtain ⟨n, keep, done, gathers⟩ := gathers valid
    rcases gathers.cases valid with ⟨short, kept⟩ | ⟨long, finished⟩
    · rw [kept] at step
      cases step
      exact gathers.valid_keep valid short nonempty
    · rw [finished] at step
      cases finish : done (chunk.take n) with
      | stop result => rw [finish] at step; cases step
      | pass next => rw [finish] at step; cases step
      | wait next =>
          rw [finish, Finish.turn] at step
          split at step
          · cases step
            exact (gathers.next_wait valid long finish).1 more nonempty
          · cases step
  no_panic := by
    intro s chunk valid step
    obtain ⟨n, keep, done, gathers⟩ := gathers valid
    rcases gathers.cases valid with ⟨_, kept⟩ | ⟨_, finished⟩
    · rw [kept] at step
      cases step
    · rw [finished] at step
      cases finish : done (chunk.take n) with
      | stop result => rw [finish] at step; cases step
      | pass next => rw [finish] at step; cases step
      | wait next =>
          rw [finish, Finish.turn] at step
          split at step <;> cases step
  rank_next := by
    intro s chunk t rest valid step
    obtain ⟨n, keep, done, gathers⟩ := gathers valid
    rcases gathers.cases valid with ⟨_, kept⟩ | ⟨long, finished⟩
    · rw [kept] at step
      cases step
    · rw [finished] at step
      cases finish : done (chunk.take n) with
      | stop result => rw [finish] at step; cases step
      | pass next =>
          rw [finish] at step
          cases step
          exact (gathers.next_pass valid long finish).2
      | wait next =>
          rw [finish, Finish.turn] at step
          split at step
          · cases step
          · cases step
            exact (gathers.next_wait valid long finish).2
  goOn_append := by
    intro s chunk t rest more valid step
    obtain ⟨n, keep, done, gathers⟩ := gathers valid
    rcases gathers.cases valid with ⟨_, kept⟩ | ⟨long, finished⟩
    · rw [kept] at step
      cases step
    · rw [gathers.done_append (valid_append more valid) long]
      rw [finished] at step
      cases finish : done (chunk.take n) with
      | stop result => rw [finish] at step; cases step
      | pass next =>
          rw [finish] at step
          cases step
          rfl
      | wait next =>
          rw [finish, Finish.turn] at step
          split at step
          · cases step
          · rename_i someRest
            cases step
            rw [Finish.turn, if_neg]
            intro nothing
            rw [List.isEmpty_iff] at someRest nothing
            exact someRest (List.append_eq_nil_iff.mp nothing).1
  stop_append := by
    intro s chunk result more valid step
    obtain ⟨n, keep, done, gathers⟩ := gathers valid
    rcases gathers.cases valid with ⟨_, kept⟩ | ⟨long, finished⟩
    · rw [kept] at step
      cases step
    · rw [gathers.done_append (valid_append more valid) long]
      rw [finished] at step
      cases finish : done (chunk.take n) with
      | stop result =>
          rw [finish] at step
          cases step
          rfl
      | pass next => rw [finish] at step; cases step
      | wait next =>
          rw [finish, Finish.turn] at step
          split at step <;> cases step
  leave_append := by
    intro s chunk t more valid step good nonempty
    obtain ⟨n, keep, done, gathers⟩ := gathers valid
    rcases gathers.cases valid with ⟨short, kept⟩ | ⟨long, finished⟩
    · rw [kept] at step
      cases step
      exact .inr (gathers.resumes valid short nonempty good).symm
    · rw [gathers.done_append (valid_append more valid) long]
      rw [finished] at step
      cases finish : done (chunk.take n) with
      | stop result => rw [finish] at step; cases step
      | pass next => rw [finish] at step; cases step
      | wait next =>
          rw [finish, Finish.turn] at step
          split at step
          · rename_i noRest
            cases step
            rw [List.isEmpty_iff.mp noRest, List.nil_append, Finish.turn, if_neg]
            · exact .inl rfl
            · simp [nonempty]
          · cases step

end ChunkLoop

end Bunx.Lib
