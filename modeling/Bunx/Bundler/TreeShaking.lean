/-
Module: Bunx.Bundler.TreeShaking
Purpose: Which files and parts tree shaking keeps: exactly those that the entry points need.
Trusted boundary: none
Main exports: Live, markFileLiveForTreeShaking, markPartLiveForTreeShaking, treeShake,
  NeededFile, NeededPart, treeShake_exact
-/
import Bunx.Bundler.LinkerGraph
import Bunx.Lib.Marking
import Mathlib.Data.Fintype.Sum

namespace Bunx.Bundler

open Bunx.Lib

variable {s : Shape}

/-! ### The two functions -/

/-- `files_live` and `parts_live`. -/
structure Live (s : Shape) where
  files : s.File → Bool
  parts : s.PartRef → Bool

def Live.setFile (live : Live s) (f : s.File) : Live s :=
  { live with files := Function.update live.files f true }

def Live.setPart (live : Live s) (p : s.PartRef) : Live s :=
  { live with parts := Function.update live.parts p true }

section Loops

variable (g : LinkerGraph s) (markFile : Live s → s.File → Option (Live s))
variable (markPart : Live s → s.PartRef → Option (Live s)) (f : s.File)

/-- All files that a CSS or HTML file refers to. -/
def markRecords (live : Live s) : Option (Live s) :=
  (List.finRange (s.records f)).foldlM (fun live i =>
    match (g.importRecords f i).sourceIndex with
    | some other => markFile live other
    | none => some live) live

/-- A statement-level import of a part. The flag says whether the part can still be removed
if it is unused. -/
def markImport (state : Live s × Bool) (importIndex : Fin (s.records f)) :
    Option (Live s × Bool) :=
  let (live, canBeRemovedIfUnused) := state
  let record := g.importRecords f importIndex
  if record.kind ≠ .stmt then some (live, canBeRemovedIfUnused)
  else
    match record.sourceIndex with
    | some other =>
        -- Not included when it can be considered to have no side effects.
        if g.sideEffects other ≠ .hasSideEffects ∧ g.ignoreDceAnnotations = false then
          some (live, canBeRemovedIfUnused)
        else do
          let live ← markFile live other
          return (live, false)
    | none =>
        if record.isExternalWithoutSideEffects then some (live, canBeRemovedIfUnused)
        else some (live, false)

/-- A part of a live file. -/
def markOwnPart (live : Live s) (i : Fin (s.parts f)) : Option (Live s) := do
  let part := g.part f i
  let canBeRemovedIfUnused :=
    if part.canBeRemovedIfUnused ∧ part.tag = .commonjsNamedExport ∧ g.wrap f = .cjs then false
    else part.canBeRemovedIfUnused
  let (live, canBeRemovedIfUnused) ←
    part.importRecordIndices.foldlM (markImport g markFile f) (live, canBeRemovedIfUnused)
  if !canBeRemovedIfUnused ||
      (!part.forceTreeShaking && !g.treeShaking && (g.entryPointKind f).isEntryPoint) then
    markPart live ⟨f, i⟩
  else some live

end Loops

mutual

def markFileLiveForTreeShaking (g : LinkerGraph s) :
    Nat → Live s → s.File → Option (Live s)
  | 0, _, _ => none
  | fuel + 1, live, f =>
      if live.files f then some live
      else
        let live := live.setFile f
        if g.astLen ≤ f then some live
        else if g.isCss f then markRecords g (markFileLiveForTreeShaking g fuel) f live
        else if g.isHtml f then markRecords g (markFileLiveForTreeShaking g fuel) f live
        else
          (List.finRange (s.parts f)).foldlM
            (markOwnPart g (markFileLiveForTreeShaking g fuel) (markPartLiveForTreeShaking g fuel) f)
            live

def markPartLiveForTreeShaking (g : LinkerGraph s) :
    Nat → Live s → s.PartRef → Option (Live s)
  | 0, _, _ => none
  | fuel + 1, live, p =>
      if live.parts p then some live
      else do
        -- The file that has the part is live as well.
        let live ← markFileLiveForTreeShaking g fuel (live.setPart p) p.1
        (g.part p.1 p.2).dependencies.foldlM (markPartLiveForTreeShaking g fuel) live

end

/-- Each entry point marks what it needs. -/
def treeShake (g : LinkerGraph s) (fuel : Nat) (entryPoints : List s.File) : Option (Live s) :=
  entryPoints.foldlM (markFileLiveForTreeShaking g fuel)
    { files := fun _ => false, parts := fun _ => false }

/-! ### What is needed -/

/-- An import statement that is included for its side effects. -/
def Included (g : LinkerGraph s) (f : s.File) (i : Fin (s.records f)) : Prop :=
  (g.importRecords f i).kind = .stmt ∧
    match (g.importRecords f i).sourceIndex with
    | some other => g.sideEffects other = .hasSideEffects ∨ g.ignoreDceAnnotations = true
    | none => (g.importRecords f i).isExternalWithoutSideEffects = false

/-- A part that must be kept in a live file. -/
def MustKeep (g : LinkerGraph s) (f : s.File) (i : Fin (s.parts f)) : Prop :=
  (g.part f i).canBeRemovedIfUnused = false ∨
  ((g.part f i).tag = .commonjsNamedExport ∧ g.wrap f = .cjs) ∨
  (∃ r ∈ (g.part f i).importRecordIndices, Included g f r) ∨
  ((g.part f i).forceTreeShaking = false ∧ g.treeShaking = false ∧
    (g.entryPointKind f).isEntryPoint = true)

/-- A file with statements. -/
def IsJs (g : LinkerGraph s) (f : s.File) : Prop :=
  f < g.astLen ∧ g.isCss f = false ∧ g.isHtml f = false

/-- A file that keeps all that it refers to. -/
def RefersToAll (g : LinkerGraph s) (f : s.File) : Prop :=
  f < g.astLen ∧ (g.isCss f = true ∨ g.isHtml f = true)

mutual

/-- The least set of files that has the entry points and is closed under the rules. -/
inductive NeededFile (g : LinkerGraph s) (entryPoints : List s.File) : s.File → Prop where
  | entryPoint {f : s.File} (member : f ∈ entryPoints) : NeededFile g entryPoints f
  | ofPart {p : s.PartRef} (needed : NeededPart g entryPoints p) : NeededFile g entryPoints p.1
  | imported {f other : s.File} (needed : NeededFile g entryPoints f) (isJs : IsJs g f)
      {i : Fin (s.parts f)} {r : Fin (s.records f)}
      (member : r ∈ (g.part f i).importRecordIndices) (included : Included g f r)
      (target : (g.importRecords f r).sourceIndex = some other) : NeededFile g entryPoints other
  | referred {f other : s.File} (needed : NeededFile g entryPoints f) (refers : RefersToAll g f)
      {r : Fin (s.records f)} (target : (g.importRecords f r).sourceIndex = some other) :
      NeededFile g entryPoints other

/-- The least set of parts that is closed under the rules. -/
inductive NeededPart (g : LinkerGraph s) (entryPoints : List s.File) : s.PartRef → Prop where
  | kept {f : s.File} (needed : NeededFile g entryPoints f) (isJs : IsJs g f)
      {i : Fin (s.parts f)} (mustKeep : MustKeep g f i) : NeededPart g entryPoints ⟨f, i⟩
  | dependency {p q : s.PartRef} (needed : NeededPart g entryPoints p)
      (member : q ∈ (g.part p.1 p.2).dependencies) : NeededPart g entryPoints q

end

/-! ### Files and parts as one graph -/

abbrev Node (s : Shape) : Type := s.File ⊕ s.PartRef

def recordTarget (record : ImportRecord s.File) : List (Node s) :=
  match record.sourceIndex with
  | some other => [.inl other]
  | none => []

open Classical in
/-- What an import statement of a part marks. -/
noncomputable def importTarget (g : LinkerGraph s) (f : s.File) (r : Fin (s.records f)) :
    List (Node s) :=
  if Included g f r then recordTarget (g.importRecords f r) else []

open Classical in
/-- What a part marks when its file is marked. -/
noncomputable def ownTarget (g : LinkerGraph s) (f : s.File) (i : Fin (s.parts f)) :
    List (Node s) :=
  (g.part f i).importRecordIndices.flatMap (importTarget g f) ++
    if MustKeep g f i then [.inr ⟨f, i⟩] else []

open Classical in
/-- What a file or a part needs at once. -/
noncomputable def needs (g : LinkerGraph s) : Node s → List (Node s)
  | .inl f =>
      if RefersToAll g f then
        (List.finRange (s.records f)).flatMap fun r => recordTarget (g.importRecords f r)
      else if IsJs g f then (List.finRange (s.parts f)).flatMap (ownTarget g f)
      else []
  | .inr p => .inl p.1 :: (g.part p.1 p.2).dependencies.map .inr

/-- What is live, as nodes. -/
def Live.marked (live : Live s) : Node s → Prop
  | .inl f => live.files f = true
  | .inr p => live.parts p = true

theorem marked_setFile (live : Live s) (f : s.File) (x : Node s) :
    (live.setFile f).marked x ↔ live.marked x ∨ x = .inl f := by
  cases x with
  | inl other =>
      by_cases same : other = f
      · simp [Live.marked, Live.setFile, same]
      · simp [Live.marked, Live.setFile, same]
  | inr p => simp [Live.marked, Live.setFile]

theorem marked_setPart (live : Live s) (p : s.PartRef) (x : Node s) :
    (live.setPart p).marked x ↔ live.marked x ∨ x = .inr p := by
  cases x with
  | inl f => simp [Live.marked, Live.setPart]
  | inr q =>
      by_cases same : q = p
      · simp [Live.marked, Live.setPart, same]
      · simp [Live.marked, Live.setPart, same]

/-! ### Loops -/

/-- A function that marks one node, as long as few enough are left. -/
def MarksNode {ι : Type} (g : LinkerGraph s) (bound : Nat) (node : ι → Node s)
    (mark : Live s → ι → Option (Live s)) : Prop :=
  ∀ live i, unmarked live.marked ≤ bound →
    ∃ live', mark live i = some live' ∧ Marks (needs g) live.marked live'.marked [node i]

section Loops

variable {g : LinkerGraph s} {bound : Nat} {markFile : Live s → s.File → Option (Live s)}
variable {markPart : Live s → s.PartRef → Option (Live s)} {live : Live s}

theorem markRecords_marks (files : MarksNode g bound .inl markFile) (f : s.File)
    (few : unmarked live.marked ≤ bound) :
    ∃ live', markRecords g markFile f live = some live' ∧
      Marks (needs g) live.marked live'.marked
        ((List.finRange (s.records f)).flatMap fun r => recordTarget (g.importRecords f r)) := by
  apply foldlM_marks Live.marked _ _ few
  intro r _ live few
  cases target : (g.importRecords f r).sourceIndex with
  | some other =>
      simp only [recordTarget, target]
      exact files live other few
  | none =>
      simp only [recordTarget, target]
      exact ⟨live, rfl, .nil⟩

open Classical in
theorem markImport_marks (files : MarksNode g bound .inl markFile) (f : s.File)
    (r : Fin (s.records f)) (removable : Bool) (few : unmarked live.marked ≤ bound) :
    ∃ live', markImport g markFile f (live, removable) r =
        some (live', removable && !decide (Included g f r)) ∧
      Marks (needs g) live.marked live'.marked (importTarget g f r) := by
  by_cases isStmt : (g.importRecords f r).kind = .stmt
  · cases target : (g.importRecords f r).sourceIndex with
    | some other =>
        by_cases skipped : g.sideEffects other ≠ .hasSideEffects ∧ g.ignoreDceAnnotations = false
        · have notIncluded : ¬Included g f r := by
            simp only [Included, isStmt, target, true_and]
            rintro (effects | ignored)
            · exact skipped.1 effects
            · simp [skipped.2] at ignored
          refine ⟨live, ?_, ?_⟩
          · simp [markImport, isStmt, target, skipped, notIncluded]
          · rw [importTarget, if_neg notIncluded]
            exact .nil
        · have included : Included g f r := by
            simp only [Included, isStmt, target, true_and]
            by_contra neither
            rw [not_or, Bool.not_eq_true] at neither
            exact skipped neither
          obtain ⟨live', isMark, marks⟩ := files live other few
          refine ⟨live', ?_, ?_⟩
          · simp [markImport, isStmt, target, skipped, included, isMark]
          · simpa [importTarget, included, recordTarget, target] using marks
    | none =>
        refine ⟨live, ?_, ?_⟩
        · cases noEffects : (g.importRecords f r).isExternalWithoutSideEffects with
          | true => simp [markImport, isStmt, target, Included, noEffects]
          | false => simp [markImport, isStmt, target, Included, noEffects]
        · have nothing : importTarget g f r = [] := by simp [importTarget, recordTarget, target]
          rw [nothing]
          exact .nil
  · have notIncluded : ¬Included g f r := fun included => isStmt included.1
    refine ⟨live, ?_, ?_⟩
    · simp [markImport, isStmt, notIncluded]
    · rw [importTarget, if_neg notIncluded]
      exact .nil

open Classical in
theorem markImports_marks (files : MarksNode g bound .inl markFile) (f : s.File)
    (rs : List (Fin (s.records f))) (removable : Bool) (few : unmarked live.marked ≤ bound) :
    ∃ live', rs.foldlM (markImport g markFile f) (live, removable) =
        some (live', removable && !decide (∃ r ∈ rs, Included g f r)) ∧
      Marks (needs g) live.marked live'.marked (rs.flatMap (importTarget g f)) := by
  induction rs generalizing live removable with
  | nil => exact ⟨live, by simp, .nil⟩
  | cons r rs ih =>
      obtain ⟨middle, isMark, first⟩ := markImport_marks files f r removable few
      obtain ⟨live', isFold, rest⟩ := ih
        (removable && !decide (Included g f r)) ((unmarked_le first.kept).trans few)
      refine ⟨live', ?_, ?_⟩
      · rw [List.foldlM_cons, isMark]
        refine isFold.trans ?_
        simp [Bool.and_assoc]
      · exact first.append rest

/-- The condition under which the function marks a part. -/
theorem mustKeep_iff (f : s.File) (i : Fin (s.parts f)) {included : Bool}
    (isIncluded : included = true ↔ ∃ r ∈ (g.part f i).importRecordIndices, Included g f r) :
    (!((if (g.part f i).canBeRemovedIfUnused ∧ (g.part f i).tag = .commonjsNamedExport ∧
        g.wrap f = .cjs then false else (g.part f i).canBeRemovedIfUnused) && !included) ||
      (!(g.part f i).forceTreeShaking && !g.treeShaking &&
        (g.entryPointKind f).isEntryPoint)) = true ↔ MustKeep g f i := by
  unfold MustKeep
  rw [← isIncluded]
  by_cases isNamedExport : (g.part f i).tag = .commonjsNamedExport ∧ g.wrap f = .cjs
  · simp [isNamedExport]
  · cases removable : (g.part f i).canBeRemovedIfUnused with
    | true => simp [isNamedExport, and_assoc]
    | false => simp

open Classical in
theorem markOwnPart_marks (files : MarksNode g bound .inl markFile)
    (parts : MarksNode g bound .inr markPart) (f : s.File) (i : Fin (s.parts f))
    (few : unmarked live.marked ≤ bound) :
    ∃ live', markOwnPart g markFile markPart f live i = some live' ∧
      Marks (needs g) live.marked live'.marked (ownTarget g f i) := by
  obtain ⟨middle, isFold, imports⟩ := markImports_marks files f
    (g.part f i).importRecordIndices
    (if (g.part f i).canBeRemovedIfUnused ∧ (g.part f i).tag = .commonjsNamedExport ∧
      g.wrap f = .cjs then false else (g.part f i).canBeRemovedIfUnused) few
  have condition := mustKeep_iff (g := g) f i (decide_eq_true_iff
    (p := ∃ r ∈ (g.part f i).importRecordIndices, Included g f r))
  by_cases keep : MustKeep g f i
  · obtain ⟨live', isMark, part⟩ := parts middle ⟨f, i⟩ ((unmarked_le imports.kept).trans few)
    refine ⟨live', ?_, ?_⟩
    · simp only [markOwnPart, isFold, Option.bind_eq_bind, Option.bind_some,
        if_pos (condition.mpr keep)]
      exact isMark
    · rw [ownTarget, if_pos keep]
      exact imports.append part
  · refine ⟨middle, ?_, ?_⟩
    · simp only [markOwnPart, isFold, Option.bind_eq_bind, Option.bind_some,
        if_neg (mt condition.mp keep)]
    · rw [ownTarget, if_neg keep, List.append_nil]
      exact imports

end Loops

/-! ### The two functions -/

section Functions

variable {g : LinkerGraph s} {fuel : Nat}

theorem markFile_marks (inner : ∀ bound < fuel,
      MarksNode g bound .inl (markFileLiveForTreeShaking g fuel) ∧
        MarksNode g bound .inr (markPartLiveForTreeShaking g fuel))
    {live : Live s} {f : s.File} (few : unmarked live.marked ≤ fuel) :
    ∃ live', markFileLiveForTreeShaking g (fuel + 1) live f = some live' ∧
      Marks (needs g) live.marked live'.marked [.inl f] := by
  unfold markFileLiveForTreeShaking
  by_cases isLive : live.files f = true
  · rw [if_pos isLive]
    exact ⟨live, rfl, .again isLive⟩
  rw [if_neg isLive]
  have fewer : unmarked (live.setFile f).marked < unmarked live.marked :=
    unmarked_lt (fun x marked => (marked_setFile live f x).mpr (.inl marked))
      (show ¬live.marked (.inl f) from isLive) ((marked_setFile live f _).mpr (.inr rfl))
  obtain ⟨files, parts⟩ := inner (unmarked (live.setFile f).marked) (by omega)
  dsimp only
  suffices body : ∃ live', _ = some live' ∧
      Marks (needs g) (live.setFile f).marked (Live.marked live') (needs g (.inl f)) by
    obtain ⟨live', isMark, marks⟩ := body
    exact ⟨live', isMark, .enter (marked_setFile live f) marks⟩
  simp only [needs]
  by_cases isMissing : g.astLen ≤ f
  · have notAll : ¬RefersToAll g f := fun all => absurd all.1 (by omega)
    have notJs : ¬IsJs g f := fun isJs => absurd isJs.1 (by omega)
    rw [if_pos isMissing, if_neg notAll, if_neg notJs]
    exact ⟨_, rfl, .nil⟩
  rw [if_neg isMissing]
  cases isCss : g.isCss f with
  | true =>
      rw [if_pos rfl, if_pos ⟨by omega, .inl isCss⟩]
      exact markRecords_marks files f le_rfl
  | false =>
      rw [if_neg Bool.false_ne_true]
      cases isHtml : g.isHtml f with
      | true =>
          rw [if_pos rfl, if_pos ⟨by omega, .inr isHtml⟩]
          exact markRecords_marks files f le_rfl
      | false =>
          have notAll : ¬RefersToAll g f := by simp [RefersToAll, isCss, isHtml]
          rw [if_neg Bool.false_ne_true, if_neg notAll, if_pos ⟨by omega, isCss, isHtml⟩]
          apply foldlM_marks Live.marked _ _ le_rfl
          intro i _ live few
          exact markOwnPart_marks files parts f i few

theorem markPart_marks (inner : ∀ bound < fuel,
      MarksNode g bound .inl (markFileLiveForTreeShaking g fuel) ∧
        MarksNode g bound .inr (markPartLiveForTreeShaking g fuel))
    {live : Live s} {p : s.PartRef} (few : unmarked live.marked ≤ fuel) :
    ∃ live', markPartLiveForTreeShaking g (fuel + 1) live p = some live' ∧
      Marks (needs g) live.marked live'.marked [.inr p] := by
  unfold markPartLiveForTreeShaking
  by_cases isLive : live.parts p = true
  · rw [if_pos isLive]
    exact ⟨live, rfl, .again isLive⟩
  rw [if_neg isLive]
  have fewer : unmarked (live.setPart p).marked < unmarked live.marked :=
    unmarked_lt (fun x marked => (marked_setPart live p x).mpr (.inl marked))
      (show ¬live.marked (.inr p) from isLive) ((marked_setPart live p _).mpr (.inr rfl))
  obtain ⟨files, parts⟩ := inner (unmarked (live.setPart p).marked) (by omega)
  obtain ⟨middle, isFile, file⟩ := files (live.setPart p) p.1 le_rfl
  obtain ⟨live', isFold, dependencies⟩ :
      ∃ live', (g.part p.1 p.2).dependencies.foldlM (markPartLiveForTreeShaking g fuel) middle =
          some live' ∧
        Marks (needs g) middle.marked live'.marked
          ((g.part p.1 p.2).dependencies.flatMap fun q => [.inr q]) :=
    foldlM_marks Live.marked _ (fun q _ live => parts live q) (unmarked_le file.kept)
  refine ⟨live', ?_, .enter (marked_setPart live p) ?_⟩
  · simp only [isFile, Option.bind_eq_bind, Option.bind_some]
    exact isFold
  · have row := file.append dependencies
    rwa [← List.map_eq_flatMap] at row

end Functions

theorem mark_marks (g : LinkerGraph s) (fuel : Nat) : ∀ bound < fuel,
    MarksNode g bound .inl (markFileLiveForTreeShaking g fuel) ∧
      MarksNode g bound .inr (markPartLiveForTreeShaking g fuel) := by
  induction fuel with
  | zero =>
      intro bound isLess
      omega
  | succ fuel ih =>
      intro bound isLess
      constructor
      · intro live f few
        exact markFile_marks ih (by omega)
      · intro live p few
        exact markPart_marks ih (by omega)

/-! ### What is live at the end -/

/-- A file or a part is needed. -/
def Needed (g : LinkerGraph s) (entryPoints : List s.File) : Node s → Prop
  | .inl f => NeededFile g entryPoints f
  | .inr p => NeededPart g entryPoints p

section Needed

variable {g : LinkerGraph s} {entryPoints : List s.File}

theorem mem_recordTarget {record : ImportRecord s.File} {x : Node s} :
    x ∈ recordTarget record ↔ ∃ other, record.sourceIndex = some other ∧ x = .inl other := by
  cases target : record.sourceIndex with
  | some other => simp [recordTarget, target]
  | none => simp [recordTarget, target]

theorem mem_ownTarget {f : s.File} {i : Fin (s.parts f)} {x : Node s} :
    x ∈ ownTarget g f i ↔
      (∃ r ∈ (g.part f i).importRecordIndices, Included g f r ∧
        ∃ other, (g.importRecords f r).sourceIndex = some other ∧ x = .inl other) ∨
      (MustKeep g f i ∧ x = .inr ⟨f, i⟩) := by
  rw [ownTarget, List.mem_append, List.mem_flatMap]
  apply or_congr
  · apply exists_congr
    intro r
    by_cases included : Included g f r
    · simp [importTarget, included, mem_recordTarget]
    · simp [importTarget, included]
  · by_cases keep : MustKeep g f i
    · simp [keep]
    · simp [keep]

theorem mem_needs_file {f : s.File} {x : Node s} :
    x ∈ needs g (.inl f) ↔
      (RefersToAll g f ∧
        ∃ r other, (g.importRecords f r).sourceIndex = some other ∧ x = .inl other) ∨
      (IsJs g f ∧ ∃ i, x ∈ ownTarget g f i) := by
  have notBoth : RefersToAll g f → ¬IsJs g f := by
    rintro ⟨_, css | html⟩ ⟨_, notCss, notHtml⟩
    · simp [css] at notCss
    · simp [html] at notHtml
  by_cases all : RefersToAll g f
  · simp [needs, all, notBoth all, mem_recordTarget]
  · by_cases isJs : IsJs g f
    · simp [needs, all, isJs]
    · simp [needs, all, isJs]

theorem mem_needs_part {p : s.PartRef} {x : Node s} :
    x ∈ needs g (.inr p) ↔
      x = .inl p.1 ∨ ∃ q ∈ (g.part p.1 p.2).dependencies, x = .inr q := by
  simp [needs, eq_comm]

/-- What a needed file or part needs at once is needed. -/
theorem needed_closed (x : Node s) (needed : Needed g entryPoints x) :
    ∀ y ∈ needs g x, Needed g entryPoints y := by
  intro y edge
  cases x with
  | inl f =>
      rcases mem_needs_file.mp edge with ⟨refers, r, other, target, rfl⟩ | ⟨isJs, i, own⟩
      · exact NeededFile.referred needed refers target
      · rcases mem_ownTarget.mp own with ⟨r, member, included, other, target, rfl⟩ | ⟨keep, rfl⟩
        · exact NeededFile.imported needed isJs member included target
        · exact NeededPart.kept needed isJs keep
  | inr p =>
      rcases mem_needs_part.mp edge with rfl | ⟨q, member, rfl⟩
      · exact NeededFile.ofPart needed
      · exact NeededPart.dependency needed member

/-- The entry points lead to a file or part. -/
def Led (g : LinkerGraph s) (entryPoints : List s.File) (x : Node s) : Prop :=
  ∃ v ∈ entryPoints.flatMap fun f => [Sum.inl f], Reach (needs g) v x

theorem Led.edge {x y : Node s} (led : Led g entryPoints x) (edge : y ∈ needs g x) :
    Led g entryPoints y := by
  obtain ⟨v, member, reach⟩ := led
  exact ⟨v, member, reach.tail edge⟩

mutual

theorem led_of_neededFile {f : s.File} : NeededFile g entryPoints f → Led g entryPoints (.inl f)
  | .entryPoint member => ⟨.inl f, by simpa using member, .refl⟩
  | .ofPart needed => (led_of_neededPart needed).edge (mem_needs_part.mpr (.inl rfl))
  | .imported needed isJs member included target =>
      (led_of_neededFile needed).edge (mem_needs_file.mpr (.inr
        ⟨isJs, _, mem_ownTarget.mpr (.inl ⟨_, member, included, _, target, rfl⟩)⟩))
  | .referred needed refers target =>
      (led_of_neededFile needed).edge (mem_needs_file.mpr (.inl ⟨refers, _, _, target, rfl⟩))

theorem led_of_neededPart {p : s.PartRef} :
    NeededPart g entryPoints p → Led g entryPoints (.inr p)
  | .kept needed isJs keep =>
      (led_of_neededFile needed).edge (mem_needs_file.mpr (.inr
        ⟨isJs, _, mem_ownTarget.mpr (.inr ⟨keep, rfl⟩)⟩))
  | .dependency needed member =>
      (led_of_neededPart needed).edge (mem_needs_part.mpr (.inr ⟨_, member, rfl⟩))

end

theorem led_iff_needed (x : Node s) : Led g entryPoints x ↔ Needed g entryPoints x := by
  constructor
  · rintro ⟨v, member, reach⟩
    apply reach.stays needed_closed
    rw [List.mem_flatMap] at member
    obtain ⟨f, member, isFile⟩ := member
    rw [List.mem_singleton.mp isFile]
    exact NeededFile.entryPoint member
  · intro needed
    cases x with
    | inl f => exact led_of_neededFile needed
    | inr p => exact led_of_neededPart needed

end Needed

theorem treeShake_marks (g : LinkerGraph s) (entryPoints : List s.File) {fuel : Nat}
    (enough : Fintype.card (Node s) < fuel) :
    ∃ live, treeShake g fuel entryPoints = some live ∧
      ∀ x, live.marked x ↔ Needed g entryPoints x := by
  obtain ⟨files, _⟩ := mark_marks g fuel (Fintype.card (Node s)) enough
  obtain ⟨live, isFold, marks⟩ :
      ∃ live, treeShake g fuel entryPoints = some live ∧
        Marks (needs g) (Live.marked ⟨fun _ => false, fun _ => false⟩) live.marked
          (entryPoints.flatMap fun f => [.inl f]) :=
    foldlM_marks Live.marked _ (fun f _ live => files live f) (unmarked_le_card _)
  refine ⟨live, isFold, fun x => ?_⟩
  have start : Live.marked (s := s) ⟨fun _ => false, fun _ => false⟩ = fun _ => False := by
    funext x
    cases x with
    | inl f => simp [Live.marked]
    | inr p => simp [Live.marked]
  rw [start] at marks
  rw [marks.exact x]
  exact led_iff_needed x

theorem Live.ext_marked {live live' : Live s} (same : ∀ x, live.marked x ↔ live'.marked x) :
    live = live' := by
  cases live
  cases live'
  congr
  · funext f
    exact Bool.eq_iff_iff.mpr (same (.inl f))
  · funext p
    exact Bool.eq_iff_iff.mpr (same (.inr p))

/-- Tree shaking ends on every graph, and what is live then is exactly what the entry points
need. -/
theorem treeShake_exact (g : LinkerGraph s) (entryPoints : List s.File) :
    ∃ live : Live s,
      (∀ fuel, Fintype.card (Node s) < fuel → treeShake g fuel entryPoints = some live) ∧
      (∀ f, live.files f = true ↔ NeededFile g entryPoints f) ∧
      ∀ p, live.parts p = true ↔ NeededPart g entryPoints p := by
  obtain ⟨live, _, isNeeded⟩ := treeShake_marks g entryPoints (Nat.lt_succ_self _)
  refine ⟨live, ?_, fun f => isNeeded (.inl f), fun p => isNeeded (.inr p)⟩
  intro fuel enough
  obtain ⟨other, isRun, otherNeeded⟩ := treeShake_marks g entryPoints enough
  rw [isRun, Live.ext_marked fun x => (otherNeeded x).trans (isNeeded x).symm]

end Bunx.Bundler
