/-
Module: Bunx.Bundler.ExportStars
Purpose: The walk along export stars: it tells of the file that it begins with exactly whether
  its exports are dynamic, and what it marks on the way is dynamic as well.
Trusted boundary: none
Main exports: StarLink, StarFromExternal, DynamicExports, Grew, propagateStars_exact
-/
import Bunx.Bundler.ScanImportsAndExports
import Bunx.Lib.Marking

namespace Bunx.Bundler

open Bunx.Lib

variable {s : Shape} (g : ScanGraph s)

/-! ### Dynamic exports -/

/-- `export * from` another file of the graph. -/
def StarLink (f other : s.File) : Prop :=
  ∃ id ∈ g.exportStarRecords f, (g.importRecords f id).sourceIndex = some other

/-- `export * from` an external module, which an entry point can keep in a format that has it. -/
def StarFromExternal (f : s.File) : Prop :=
  (∃ id ∈ g.exportStarRecords f, (g.importRecords f id).sourceIndex = none) ∧
    ¬((g.entryPointKind f).isEntryPoint = true ∧ g.outputFormat.keepEs6ImportExportSyntax = true)

/-- The exports of such a file are not known before it runs. -/
def IsDynamic (kind : ExportsKind) : Prop := kind = .cjs ∨ kind = .esmWithDynamicFallback

/-- Export stars lead to a file whose exports are not known, or to one that has an export star
from an external module. -/
def DynamicExports (exportsKind : s.File → ExportsKind) (f : s.File) : Prop :=
  ∃ other, Relation.ReflTransGen (StarLink g) f other ∧
    (StarFromExternal g other ∨ IsDynamic (exportsKind other))

/-- What the walks do to the kinds: some files with dynamic exports are marked. -/
def Grew (before after : s.File → ExportsKind) : Prop :=
  ∀ x, after x = before x ∨
    after x = .esmWithDynamicFallback ∧ before x ≠ .cjs ∧ DynamicExports g before x

variable {g}

theorem DynamicExports.link {kinds : s.File → ExportsKind} {f other : s.File}
    (link : StarLink g f other) (isDynamic : DynamicExports g kinds other) :
    DynamicExports g kinds f := by
  obtain ⟨target, path, ends⟩ := isDynamic
  exact ⟨target, .head link path, ends⟩

namespace Grew

variable {before middle after : s.File → ExportsKind}

theorem refl (kinds : s.File → ExportsKind) : Grew g kinds kinds := fun _ => .inl rfl

theorem isDynamic (grew : Grew g before after) {f : s.File} (dynamic : IsDynamic (before f)) :
    IsDynamic (after f) := by
  rcases grew f with same | ⟨marked, _⟩
  · rwa [same]
  · exact .inr marked

theorem dynamicExports (grew : Grew g before after) {f : s.File}
    (dynamic : DynamicExports g after f) : DynamicExports g before f := by
  obtain ⟨other, path, external | isDynamic⟩ := dynamic
  · exact ⟨other, path, .inl external⟩
  · rcases grew other with same | ⟨_, _, target, further, ends⟩
    · exact ⟨other, path, .inr (same ▸ isDynamic)⟩
    · exact ⟨target, path.trans further, ends⟩

theorem dynamicExports_after (grew : Grew g before after) {f : s.File}
    (dynamic : DynamicExports g before f) : DynamicExports g after f := by
  obtain ⟨other, path, external | isDynamic⟩ := dynamic
  · exact ⟨other, path, .inl external⟩
  · exact ⟨other, path, .inr (grew.isDynamic isDynamic)⟩

/-- CommonJS files stay what they are, and there are no others. -/
theorem isCjs_iff (grew : Grew g before after) (f : s.File) :
    after f = .cjs ↔ before f = .cjs := by
  rcases grew f with same | ⟨marked, notCjs, _⟩
  · rw [same]
  · simp [marked, notCjs]

theorem trans (first : Grew g before middle) (second : Grew g middle after) :
    Grew g before after := by
  intro x
  rcases second x with same | ⟨marked, notCjs, dynamic⟩
  · rw [same]
    exact first x
  · refine .inr ⟨marked, ?_, first.dynamicExports dynamic⟩
    intro isCjs
    rcases first x with same | ⟨_, notCjs', _⟩
    · exact notCjs (same.trans isCjs)
    · exact notCjs' isCjs

theorem setDynamic {walk : StarWalk s} {f : s.File} (notCjs : walk.exportsKind f ≠ .cjs)
    (dynamic : DynamicExports g walk.exportsKind f) :
    Grew g walk.exportsKind (walk.setDynamic f).exportsKind := by
  intro x
  by_cases same : x = f
  · subst same
    exact .inr ⟨by simp [StarWalk.setDynamic], notCjs, dynamic⟩
  · exact .inl (by simp [StarWalk.setDynamic, same])

end Grew

/-! ### The walk -/

/-- What the walk visits from a file. -/
def starRow (f : s.File) (importRecords : Fin (s.records f) → ImportRecord s.File)
    (id : Fin (s.records f)) : List s.File :=
  match (importRecords id).sourceIndex with
  | none => []
  | some other => if other = f then [] else [other]

def starTargets (g : ScanGraph s) (f : s.File) : List s.File :=
  (g.exportStarRecords f).flatMap (starRow f (g.importRecords f))

def StarWalk.visited (walk : StarWalk s) (f : s.File) : Prop := walk.exportStarMap f = true

/-- Nothing that the walk came to on the way makes exports dynamic. -/
def Harmless (g : ScanGraph s) (before after : StarWalk s) : Prop :=
  ∀ x, after.visited x → ¬before.visited x →
    ¬StarFromExternal g x ∧ ¬IsDynamic (before.exportsKind x)

/-- The answer "no" after visits of the given files. -/
structure SaysNo (g : ScanGraph s) (before : StarWalk s) (row : List s.File)
    (after : StarWalk s) : Prop where
  same : after.exportsKind = before.exportsKind
  marks : Marks (starTargets g) before.visited after.visited row
  harmless : Harmless g before after

/-- The answer "yes" for a file. -/
structure SaysYes (g : ScanGraph s) (before : StarWalk s) (f : s.File) (after : StarWalk s) :
    Prop where
  grew : Grew g before.exportsKind after.exportsKind
  isDynamic : IsDynamic (after.exportsKind f)
  dynamic : DynamicExports g before.exportsKind f

section Answers

variable {before middle after walk : StarWalk s} {row rest : List s.File} {f other : s.File}

theorem SaysNo.nil : SaysNo g walk [] walk where
  same := rfl
  marks := .nil
  harmless _ marked fresh := absurd marked fresh

theorem SaysNo.append (first : SaysNo g before row middle) (second : SaysNo g middle rest after) :
    SaysNo g before (row ++ rest) after where
  same := second.same.trans first.same
  marks := first.marks.append second.marks
  harmless x marked fresh := by
    by_cases early : middle.visited x
    · exact first.harmless x early fresh
    · rw [← first.same]
      exact second.harmless x marked early

/-- What was said after some answers "no". -/
theorem SaysYes.afterNo (first : SaysNo g before row middle) (second : SaysYes g middle f after) :
    SaysYes g before f after where
  grew := first.same ▸ second.grew
  isDynamic := second.isDynamic
  dynamic := first.same ▸ second.dynamic

/-- What is said of a file is said of a file with an export star from it. -/
theorem SaysYes.link (yes : SaysYes g before other middle) (link : StarLink g f other)
    (notCjs : before.exportsKind f ≠ .cjs) :
    SaysYes g before f (middle.setDynamic f) := by
  have dynamic := DynamicExports.link link yes.dynamic
  refine ⟨?_, .inr (by simp [StarWalk.setDynamic]), dynamic⟩
  intro x
  by_cases same : x = f
  · subst same
    exact .inr ⟨by simp [StarWalk.setDynamic], notCjs, dynamic⟩
  · have kept : (middle.setDynamic f).exportsKind x = middle.exportsKind x := by
      simp [StarWalk.setDynamic, same]
    rw [kept]
    exact yes.grew x

end Answers

/-- A function that visits one file. -/
def VisitsFile (g : ScanGraph s) (bound : Nat)
    (visitFile : StarWalk s → s.File → Option (StarWalk s × Bool)) : Prop :=
  ∀ walk f, unmarked walk.visited ≤ bound → ∃ walk',
    (visitFile walk f = some (walk', false) ∧ SaysNo g walk [f] walk') ∨
    (visitFile walk f = some (walk', true) ∧ SaysYes g walk f walk')

/-- The external modules of the export stars stay in the output. -/
def KeepsStars (g : ScanGraph s) (f : s.File) : Prop :=
  (g.entryPointKind f).isEntryPoint = true ∧ g.outputFormat.keepEs6ImportExportSyntax = true

/-- What following some export stars of a file tells. -/
def StarsSay (g : ScanGraph s) (visitFile : StarWalk s → s.File → Option (StarWalk s × Bool))
    (f : s.File) (walk : StarWalk s) (ids : List (Fin (s.records f))) : Prop :=
  ∃ walk',
    (followStars g visitFile f walk ids = some (walk', false) ∧
      SaysNo g walk (ids.flatMap (starRow f (g.importRecords f))) walk' ∧
      ∀ id ∈ ids, (g.importRecords f id).sourceIndex = none → KeepsStars g f) ∨
    (followStars g visitFile f walk ids = some (walk', true) ∧ SaysYes g walk f walk')

section Follow

variable {bound : Nat} {visitFile : StarWalk s → s.File → Option (StarWalk s × Bool)}
variable {f : s.File} {walk : StarWalk s} {id : Fin (s.records f)} {ids : List (Fin (s.records f))}

theorem starsSay_skip
    (isSame : followStars g visitFile f walk (id :: ids) = followStars g visitFile f walk ids)
    (nothing : starRow f (g.importRecords f) id = [])
    (keeps : (g.importRecords f id).sourceIndex = none → KeepsStars g f)
    (rest : StarsSay g visitFile f walk ids) : StarsSay g visitFile f walk (id :: ids) := by
  obtain ⟨walk', no | yes⟩ := rest
  · obtain ⟨isRun, noRest, keepsRest⟩ := no
    refine ⟨walk', .inl ⟨isSame.trans isRun, ?_, ?_⟩⟩
    · rwa [List.flatMap_cons, nothing, List.nil_append]
    · intro other member
      rcases List.mem_cons.mp member with rfl | inRest
      · exact keeps
      · exact keepsRest other inRest
  · exact ⟨walk', .inr ⟨isSame.trans yes.1, yes.2⟩⟩

theorem starsSay_external (isStar : id ∈ g.exportStarRecords f)
    (target : (g.importRecords f id).sourceIndex = none) (notCjs : walk.exportsKind f ≠ .cjs)
    (notKept : ¬KeepsStars g f) : StarsSay g visitFile f walk (id :: ids) := by
  have dynamic : DynamicExports g walk.exportsKind f := ⟨f, .refl, .inl ⟨⟨id, isStar, target⟩, notKept⟩⟩
  have condition : (g.entryPointKind f).isEntryPoint = false ∨
      g.outputFormat.keepEs6ImportExportSyntax = false := by
    rwa [KeepsStars, not_and_or, Bool.not_eq_true, Bool.not_eq_true] at notKept
  refine ⟨walk.setDynamic f, .inr ⟨?_, .setDynamic notCjs dynamic, ?_, dynamic⟩⟩
  · simp only [followStars, target, if_pos condition]
  · exact .inr (by simp [StarWalk.setDynamic])

theorem starsSay_link (visits : VisitsFile g bound visitFile) (isStar : id ∈ g.exportStarRecords f)
    {other : s.File} (target : (g.importRecords f id).sourceIndex = some other)
    (different : other ≠ f) (notCjs : walk.exportsKind f ≠ .cjs)
    (few : unmarked walk.visited ≤ bound)
    (rest : ∀ walk, walk.exportsKind f ≠ .cjs → unmarked walk.visited ≤ bound →
      StarsSay g visitFile f walk ids) : StarsSay g visitFile f walk (id :: ids) := by
  have one : starRow f (g.importRecords f) id = [other] := by simp [starRow, target, different]
  obtain ⟨middle, ⟨isVisit, no⟩ | ⟨isVisit, yes⟩⟩ := visits walk other few
  · obtain ⟨walk', answer⟩ := rest middle (no.same ▸ notCjs)
      ((unmarked_le no.marks.kept).trans few)
    have isSame : followStars g visitFile f walk (id :: ids) =
        followStars g visitFile f middle ids := by
      simp [followStars, target, different, isVisit]
    rcases answer with ⟨isRun, noRest, keepsRest⟩ | ⟨isRun, yes⟩
    · refine ⟨walk', .inl ⟨isSame.trans isRun, ?_, ?_⟩⟩
      · rw [List.flatMap_cons, one]
        exact no.append noRest
      · intro id' member isExternal
        rcases List.mem_cons.mp member with rfl | inRest
        · rw [target] at isExternal
          cases isExternal
        · exact keepsRest id' inRest isExternal
    · exact ⟨walk', .inr ⟨isSame.trans isRun, yes.afterNo no⟩⟩
  · refine ⟨middle.setDynamic f, .inr ⟨?_, yes.link ⟨id, isStar, target⟩ notCjs⟩⟩
    simp [followStars, target, different, isVisit]

theorem followStars_answers (visits : VisitsFile g bound visitFile)
    (areStars : ∀ id ∈ ids, id ∈ g.exportStarRecords f) (notCjs : walk.exportsKind f ≠ .cjs)
    (few : unmarked walk.visited ≤ bound) : StarsSay g visitFile f walk ids := by
  induction ids generalizing walk with
  | nil => exact ⟨walk, .inl ⟨rfl, .nil, fun _ member => by cases member⟩⟩
  | cons id ids ih =>
      have isStar := areStars id (List.mem_cons_self ..)
      have rest (walk : StarWalk s) (notCjs : walk.exportsKind f ≠ .cjs)
          (few : unmarked walk.visited ≤ bound) : StarsSay g visitFile f walk ids :=
        ih (fun id member => areStars id (List.mem_cons_of_mem _ member))
          notCjs few
      cases target : (g.importRecords f id).sourceIndex with
      | none =>
          by_cases keeps : KeepsStars g f
          · apply starsSay_skip _ _ (fun _ => keeps) (rest walk notCjs few)
            · simp [followStars, target, keeps.1, keeps.2]
            · simp [starRow, target]
          · exact starsSay_external isStar target notCjs keeps
      | some other =>
          by_cases own : other = f
          · apply starsSay_skip _ _ _ (rest walk notCjs few)
            · simp [followStars, target, own]
            · simp [starRow, target, own]
            · simp [target]
          · exact starsSay_link visits isStar target own notCjs few rest

end Follow

theorem visited_visit (walk : StarWalk s) (f x : s.File) :
    (walk.visit f).visited x ↔ walk.visited x ∨ x = f := by
  by_cases same : x = f
  · simp [StarWalk.visited, StarWalk.visit, same]
  · simp [StarWalk.visited, StarWalk.visit, same]

theorem walk_answers (g : ScanGraph s) (fuel : Nat) : ∀ bound < fuel,
    VisitsFile g bound (hasDynamicExportsDueToExportStar g fuel) := by
  induction fuel with
  | zero =>
      intro bound isLess
      omega
  | succ fuel ih =>
      intro bound isLess walk f few
      rw [hasDynamicExportsDueToExportStar]
      by_cases isDynamic : walk.exportsKind f = .cjs ∨ walk.exportsKind f = .esmWithDynamicFallback
      · rw [if_pos isDynamic]
        exact ⟨walk, .inr ⟨rfl, .refl _, isDynamic, f, .refl, .inr isDynamic⟩⟩
      rw [if_neg isDynamic]
      by_cases isVisited : walk.exportStarMap f = true
      · rw [if_pos isVisited]
        exact ⟨walk, .inl ⟨rfl, rfl, .again isVisited,
          fun x marked fresh => absurd marked fresh⟩⟩
      rw [if_neg isVisited]
      have fewer : unmarked (walk.visit f).visited < unmarked walk.visited :=
        unmarked_lt (fun x marked => (visited_visit walk f x).mpr (.inl marked))
          (show ¬walk.visited f from isVisited) ((visited_visit walk f f).mpr (.inr rfl))
      have notCjs : (walk.visit f).exportsKind f ≠ .cjs := fun isCjs => isDynamic (.inl isCjs)
      obtain ⟨walk', ⟨isRun, no, keeps⟩ | ⟨isRun, yes⟩⟩ := followStars_answers
        (ih (unmarked (walk.visit f).visited) (by omega))
        (fun _ member => member) notCjs le_rfl
      · refine ⟨walk', .inl ⟨isRun, no.same, .enter (visited_visit walk f) no.marks, ?_⟩⟩
        intro x marked fresh
        by_cases same : x = f
        · subst same
          refine ⟨?_, isDynamic⟩
          rintro ⟨⟨id, isStar, isExternal⟩, notKept⟩
          exact notKept (keeps id isStar isExternal)
        · apply no.harmless x marked
          rw [visited_visit]
          exact fun either => either.elim fresh same
      · exact ⟨walk', .inr ⟨isRun, yes.grew, yes.isDynamic, yes.dynamic⟩⟩

/-! ### A walk from the beginning -/

/-- The answer "no" to the first question of a walk: nothing that export stars lead to makes
exports dynamic. -/
theorem SaysNo.notDynamic {before after : StarWalk s} {f : s.File}
    (no : SaysNo g before [f] after) (none : ∀ x, ¬before.visited x) :
    ¬DynamicExports g before.exportsKind f := by
  rintro ⟨other, path, ends⟩
  have reached : after.visited other := by
    clear ends
    induction path with
    | refl => exact no.marks.all f (List.mem_singleton_self f)
    | @tail x y _ link ih =>
        obtain ⟨id, isStar, target⟩ := link
        by_cases own : y = x
        · rwa [own]
        · apply no.marks.closed x ih (none x)
          exact List.mem_flatMap.mpr ⟨id, isStar, by simp [starRow, target, own]⟩
  obtain ⟨notExternal, notDynamic⟩ := no.harmless other reached (none other)
  exact ends.elim notExternal notDynamic

/-- A walk from a file settles whether its exports are dynamic, and marks no other files than
those with dynamic exports. -/
theorem propagateStars_exact (g : ScanGraph s) {fuel : Nat} (enough : s.files < fuel)
    (flags : FileFlags s) (f : s.File) :
    ∃ exportsKind, propagateStars g fuel flags f = some { flags with exportsKind := exportsKind } ∧
      Grew g flags.exportsKind exportsKind ∧
      (DynamicExports g flags.exportsKind f → IsDynamic (exportsKind f)) := by
  unfold propagateStars
  cases noStars : (g.exportStarRecords f).isEmpty with
  | true =>
      refine ⟨flags.exportsKind, rfl, .refl _, ?_⟩
      rintro ⟨other, path, ends⟩
      have noLink (id : Fin (s.records f)) : id ∉ g.exportStarRecords f := by
        rw [List.isEmpty_iff.mp noStars]
        exact List.not_mem_nil
      rcases Relation.ReflTransGen.cases_head path with rfl | ⟨next, ⟨id, isStar, _⟩, _⟩
      · rcases ends with ⟨⟨id, isStar, _⟩, _⟩ | isDynamic
        · exact absurd isStar (noLink id)
        · exact isDynamic
      · exact absurd isStar (noLink id)
  | false =>
      have few (walk : StarWalk s) : unmarked walk.visited ≤ s.files :=
        (unmarked_le_card _).trans_eq (Fintype.card_fin _)
      obtain ⟨walk', ⟨isRun, no⟩ | ⟨isRun, yes⟩⟩ := walk_answers g fuel s.files enough
        { exportsKind := flags.exportsKind, exportStarMap := fun _ => false } f (few _)
      · refine ⟨walk'.exportsKind, by simp [isRun], ?_, ?_⟩
        · rw [no.same]
          exact .refl _
        · intro dynamic
          exact absurd dynamic (no.notDynamic fun x => Bool.false_ne_true)
      · exact ⟨walk'.exportsKind, by simp [isRun], yes.grew, fun _ => yes.isDynamic⟩

end Bunx.Bundler
