/-
Module: Bunx.Install.HoistRun
Purpose: Lockfile::hoist as a state machine that handles one dependency at a
  time, and the connection with the loop of the source.
Trusted boundary: none
Main exports:
  Frame, Machine, Machine.Step, Machine.Reachable, processSubtree_run,
  hoistLoop_run, hoist_run
-/
import Bunx.Lib.Run
import Bunx.Install.Tree

namespace Bunx.Install

open Lib

/-- A subtree in progress: the tree being filled and the dependencies of its
package that are still to be placed. -/
structure Frame where
  parentPkgId : PackageID
  nextId : Id
  hoistRootId : Option Id
  rest : List DependencyID

structure Machine where
  builder : Builder
  frame : Option Frame := none

namespace Machine

variable (L : Lockfile) (method : BuilderMethod)

/-- Begin a subtree.  A package without dependencies gets no tree. -/
def enter (selfId : Option Id) (dependencyId : DependencyID)
    (hoistRootId : Option Id) (b : Builder) : Machine :=
  let parentPkgId := b.parentPkgId dependencyId
  if (L.resolutionList parentPkgId).len = 0 then { builder := b }
  else
    { builder := b.openTree selfId dependencyId
      frame := some
        { parentPkgId := parentPkgId, nextId := b.list.length
          hoistRootId := hoistRootId, rest := L.sortBuf parentPkgId } }

/-- The state in which the root package's subtree begins. -/
def start : Machine := enter L none rootDepId none (Builder.init L)

/-- Read an item off the queue, handle one dependency of the subtree in
progress, or finish that subtree. -/
inductive Step : Machine → Machine → Prop where
  | read (b : Builder) (item : FillItem) (queue : List FillItem)
      (front : b.queue = item :: queue) :
      Step { builder := b }
        (enter L (some (b.tree item.treeId).id) item.dependencyId
          item.hoistRootId { b with queue := queue })
  | dep (b b' : Builder) (f : Frame) (d : DependencyID) (rest : List DependencyID)
      (front : f.rest = d :: rest)
      (processed :
        processDep L method f.parentPkgId f.nextId f.hoistRootId d b = .ok b') :
      Step { builder := b, frame := some f }
        { builder := b', frame := some { f with rest := rest } }
  | close (b : Builder) (f : Frame) (finished : f.rest = []) :
      Step { builder := b, frame := some f }
        { builder := b.closeTree f.nextId }

/-- The state a step leads to; there is none when the queue is empty or the
subtree fails. -/
def next (m : Machine) : Option Machine :=
  match m.frame with
  | none =>
      match m.builder.queue with
      | [] => none
      | item :: queue =>
          some (enter L (some (m.builder.tree item.treeId).id) item.dependencyId
            item.hoistRootId { m.builder with queue := queue })
  | some f =>
      match f.rest with
      | [] => some { builder := m.builder.closeTree f.nextId }
      | d :: rest =>
          match processDep L method f.parentPkgId f.nextId f.hoistRootId d
              m.builder with
          | .error _ => none
          | .ok b => some { builder := b, frame := some { f with rest := rest } }

theorem Step.next_eq {m m' : Machine} (step : Step L method m m') :
    next L method m = some m' := by
  cases step with
  | read b item queue front => simp [next, front]
  | dep b b' f d rest front processed => simp [next, front, processed]
  | close b f finished => simp [next, finished]

/-- The states of the run that builds the trees of a lockfile. -/
def Reachable (m : Machine) : Prop := Run (Step L method) (start L) m

end Machine

section Connection

variable {L : Lockfile} {method : BuilderMethod}

/-- The `'dep` loop is a run of `dep` steps. -/
theorem processDeps_run {parentPkgId : PackageID} {nextId : Id}
    {hoistRootId : Option Id}
    {ds : List DependencyID} {b b' : Builder}
    (processed :
      processDeps L method parentPkgId nextId hoistRootId ds b = .ok b') :
    Run (Machine.Step L method)
      { builder := b
        frame := some ⟨parentPkgId, nextId, hoistRootId, ds⟩ }
      { builder := b'
        frame := some ⟨parentPkgId, nextId, hoistRootId, []⟩ } := by
  induction ds generalizing b with
  | nil =>
      simp only [processDeps, Except.ok.injEq] at processed
      rw [processed]
  | cons d ds ih =>
      simp only [processDeps] at processed
      split at processed
      · cases processed
      · rename_i middle first
        exact Relation.ReflTransGen.head
          (.dep b middle _ d ds rfl first) (ih processed)

/-- A subtree is entered, worked through and closed. -/
theorem processSubtree_run {selfId : Option Id} {dependencyId : DependencyID}
    {hoistRootId : Option Id} {b b' : Builder}
    (processed :
      processSubtree L method selfId dependencyId hoistRootId b = .ok b') :
    Run (Machine.Step L method)
      (Machine.enter L selfId dependencyId hoistRootId b)
      { builder := b' } := by
  simp only [processSubtree] at processed
  by_cases empty : (L.resolutionList (b.parentPkgId dependencyId)).len = 0
  · simp only [if_pos empty, Except.ok.injEq] at processed
    rw [Machine.enter, if_pos empty, processed]
  · simp only [if_neg empty] at processed
    rw [Machine.enter, if_neg empty]
    split at processed
    · cases processed
    · rename_i filled loop
      cases processed
      exact (processDeps_run loop).tail (.close filled _ rfl)

/-- The breadth-first loop is a run that ends with an empty queue. -/
theorem hoistLoop_run {fuel : Nat} {b b' : Builder}
    (finished : hoistLoop L method fuel b = some (.ok b')) :
    Run (Machine.Step L method) { builder := b } { builder := b' } ∧
      b'.queue = [] := by
  induction fuel generalizing b with
  | zero =>
      rw [hoistLoop, ite_eq_iff] at finished
      rcases finished with ⟨empty, same⟩ | ⟨_, impossible⟩
      · cases same
        exact ⟨.refl, empty⟩
      · cases impossible
  | succ fuel ih =>
      simp only [hoistLoop] at finished
      split at finished
      · rename_i empty
        cases finished
        exact ⟨.refl, empty⟩
      · rename_i item queue front
        split at finished
        · cases finished
        · rename_i middle first
          rcases ih finished with ⟨rest, empty⟩
          refine ⟨Relation.ReflTransGen.head (.read b item queue front) ?_, empty⟩
          exact (processSubtree_run first).trans rest

/-- The result of `Lockfile::hoist` is the cleaned builder of a reachable state
with nothing left to do. -/
theorem hoist_run {fuel : Nat} {r : CleanResult}
    (finished : hoist L method fuel = some (.ok r)) :
    ∃ b, Machine.Reachable L method { builder := b } ∧ b.queue = [] ∧
      r = b.clean := by
  simp only [hoist] at finished
  split at finished
  · cases finished
  · rename_i first root
    rw [Option.map_eq_some_iff] at finished
    rcases finished with ⟨result, loop, cleaned⟩
    cases result with
    | error e => cases cleaned
    | ok b =>
        cases cleaned
        rcases hoistLoop_run loop with ⟨run, empty⟩
        exact ⟨b, (processSubtree_run root).trans run, empty, rfl⟩

end Connection

end Bunx.Install
