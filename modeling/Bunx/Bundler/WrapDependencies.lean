/-
Module: Bunx.Bundler.WrapDependencies
Purpose: What the second step of the scan leaves: which files have dynamic exports, and which
  are wrapped.
Trusted boundary: none
Main exports: Wrapped, AfterStep1, figureOutCommonJs_afterStep1, wrap_marks, Progress,
  wrapDependencies_exact
-/
import Bunx.Bundler.ExportStars
import Bunx.Lib.Run

namespace Bunx.Bundler

open Bunx.Lib

variable {s : Shape} (g : ScanGraph s)

/-! ### After step 1 -/

/-- A file that is wrapped is reachable, and no wrapper has been followed. -/
structure AfterStep1 (flags : FileFlags s) : Prop where
  reachable : ∀ f, flags.wrap f ≠ .none → f ∈ g.reachable
  notFollowed : ∀ f, flags.didWrapDependencies f = false

namespace AfterStep1

variable {g} {flags : FileFlags s} {f : s.File}

theorem setWrap (after : AfterStep1 g flags) (member : f ∈ g.reachable) (kind : WrapKind) :
    AfterStep1 g (flags.setWrap f kind) where
  reachable x wrapped := by
    by_cases same : x = f
    · rwa [same]
    · apply after.reachable x
      simpa [FileFlags.setWrap, same] using wrapped
  notFollowed := after.notFollowed

theorem setCjs (after : AfterStep1 g flags) (member : f ∈ g.reachable) :
    AfterStep1 g (flags.setCjs f) where
  reachable := (after.setWrap member .cjs).reachable
  notFollowed := after.notFollowed

theorem requireFile (after : AfterStep1 g flags) (member : f ∈ g.reachable) :
    AfterStep1 g (requireFile flags f) := by
  unfold Bundler.requireFile
  split
  · exact after.setWrap member .esm
  · exact after.setCjs member

theorem figureOutRecord (after : AfterStep1 g flags) (member : f ∈ g.reachable)
    (r : Fin (s.records f)) : AfterStep1 g (figureOutRecord g f flags r) := by
  unfold Bundler.figureOutRecord
  dsimp only
  split
  · exact after
  · next other target =>
    have isReachable := g.closed f member r other target
    split
    · have first : AfterStep1 g (if (((g.importRecords f r).containsImportStar ||
          (g.importRecords f r).containsDefaultAlias) && !g.hasLazyExport other &&
          !g.forceCjsToEsm other && decide (flags.exportsKind other = .none)) = true
          then flags.setCjs other else flags) := by
        split
        · exact after.setCjs isReachable
        · exact after
      split
      · exact first.setCjs isReachable
      · exact first
    · exact after.requireFile isReachable
    · split
      · exact after.requireFile isReachable
      · exact after
    · exact after

theorem figureOutFile (after : AfterStep1 g flags) (member : f ∈ g.reachable) :
    AfterStep1 g (figureOutFile g flags f) := by
  unfold Bundler.figureOutFile
  split
  · exact after
  · have records : AfterStep1 g
        ((List.finRange (s.records f)).foldl (Bundler.figureOutRecord g f) flags) := by
      generalize List.finRange (s.records f) = rs
      induction rs generalizing flags with
      | nil => exact after
      | cons r rs ih => exact ih (after.figureOutRecord member r)
    dsimp only
    split
    · exact records.setWrap member .cjs
    · exact records

end AfterStep1

theorem figureOutCommonJs_afterStep1 (exportsKind : s.File → ExportsKind) :
    AfterStep1 g (figureOutCommonJs g exportsKind) := by
  have files (fs : List s.File) (areReachable : ∀ f ∈ fs, f ∈ g.reachable)
      {flags : FileFlags s} (after : AfterStep1 g flags) :
      AfterStep1 g (fs.foldl (figureOutFile g) flags) := by
    induction fs generalizing flags with
    | nil => exact after
    | cons f fs ih =>
        apply ih fun f member => areReachable f (List.mem_cons_of_mem _ member)
        exact after.figureOutFile (areReachable f (List.mem_cons_self ..))
  apply files g.reachable fun f member => member
  exact ⟨fun f wrapped => absurd rfl wrapped, fun _ => rfl⟩

/-! ### Wrappers -/

/-- The least set that has the files wrapped in step 1 and the CommonJS files that reachable
files import, and is closed under import records, without what comes of the runtime. -/
inductive Wrapped (flags : FileFlags s) : s.File → Prop where
  | step1 {f : s.File} (wrapped : flags.wrap f ≠ .none) : Wrapped flags f
  | commonJs {f other : s.File} {r : Fin (s.records f)} (reachable : f ∈ g.reachable)
      (target : (g.importRecords f r).sourceIndex = some other)
      (isCjs : flags.exportsKind other = .cjs) (notRuntime : isRuntime other = false) :
      Wrapped flags other
  | imported {f other : s.File} {r : Fin (s.records f)} (wrapped : Wrapped flags f)
      (notRuntime : isRuntime f = false)
      (target : (g.importRecords f r).sourceIndex = some other)
      (otherNotRuntime : isRuntime other = false) : Wrapped flags other

/-- What is visited when a file is to be wrapped. -/
def toWrap (f : s.File) : List s.File := if isRuntime f then [] else [f]

def recordToWrap (f : s.File) (r : Fin (s.records f)) : List s.File :=
  match (g.importRecords f r).sourceIndex with
  | some other => toWrap other
  | none => []

def wraps (f : s.File) : List s.File :=
  (List.finRange (s.records f)).flatMap (recordToWrap g f)

def FileFlags.followed (flags : FileFlags s) (f : s.File) : Prop :=
  flags.didWrapDependencies f = true

theorem followed_setWrapped (flags : FileFlags s) (f x : s.File) :
    (flags.setWrapped f).followed x ↔ flags.followed x ∨ x = f := by
  by_cases same : x = f
  · simp [FileFlags.followed, FileFlags.setWrapped, same]
  · simp [FileFlags.followed, FileFlags.setWrapped, same]

variable {g}

theorem mem_toWrap {f x : s.File} : x ∈ toWrap f ↔ x = f ∧ isRuntime f = false := by
  cases runtime : isRuntime f with
  | true => simp [toWrap, runtime]
  | false => simp [toWrap, runtime]

theorem mem_wraps {f x : s.File} : x ∈ wraps g f ↔
    isRuntime x = false ∧ ∃ r, (g.importRecords f r).sourceIndex = some x := by
  simp only [wraps, List.mem_flatMap, List.mem_finRange, true_and]
  constructor
  · rintro ⟨r, member⟩
    cases target : (g.importRecords f r).sourceIndex with
    | none => simp [recordToWrap, target] at member
    | some other =>
        simp only [recordToWrap, target, mem_toWrap] at member
        obtain ⟨rfl, notRuntime⟩ := member
        exact ⟨notRuntime, r, target⟩
  · rintro ⟨notRuntime, r, target⟩
    exact ⟨r, by simp [recordToWrap, target, mem_toWrap, notRuntime]⟩

theorem wrap_marks (g : ScanGraph s) {fuel : Nat} {flags : FileFlags s}
    (few : unmarked flags.followed < fuel) (f : s.File) :
    ∃ flags', wrap g fuel flags f = some flags' ∧
      Marks (wraps g) flags.followed flags'.followed (toWrap f) := by
  induction fuel generalizing flags f with
  | zero => exact absurd few (Nat.not_lt_zero _)
  | succ fuel ih =>
      rw [wrap]
      by_cases isFollowed : flags.didWrapDependencies f = true
      · rw [if_pos isFollowed]
        refine ⟨flags, rfl, ?_⟩
        unfold toWrap
        split
        · exact .nil
        · exact .again isFollowed
      rw [if_neg isFollowed]
      cases runtime : isRuntime f with
      | true =>
          rw [if_pos rfl, toWrap, if_pos runtime]
          exact ⟨flags, rfl, .nil⟩
      | false =>
          rw [if_neg Bool.false_ne_true, toWrap, runtime, if_neg Bool.false_ne_true]
          have fewer : unmarked (flags.setWrapped f).followed < unmarked flags.followed :=
            unmarked_lt (fun x marked => (followed_setWrapped flags f x).mpr (.inl marked))
              (show ¬flags.followed f from isFollowed)
              ((followed_setWrapped flags f f).mpr (.inr rfl))
          obtain ⟨flags', isFold, marks⟩ :
              ∃ flags', (List.finRange (s.records f)).foldlM (fun flags r =>
                  match (g.importRecords f r).sourceIndex with
                  | some other => wrap g fuel flags other
                  | none => some flags) (flags.setWrapped f) = some flags' ∧
                Marks (wraps g) (flags.setWrapped f).followed flags'.followed
                  ((List.finRange (s.records f)).flatMap (recordToWrap g f)) := by
            apply foldlM_marks FileFlags.followed _ _ le_rfl
            intro r _ flags few
            cases target : (g.importRecords f r).sourceIndex with
            | none =>
                simp only [recordToWrap, target]
                exact ⟨flags, rfl, .nil⟩
            | some other =>
                simp only [recordToWrap, target]
                exact ih (by omega) other
          exact ⟨flags', isFold, .enter (followed_setWrapped flags f) marks⟩

/-- What a call does to the columns: the kinds stay, and a file stays as it was or is wrapped. -/
structure OnlyWraps (before after : FileFlags s) : Prop where
  exportsKind : after.exportsKind = before.exportsKind
  wrapped : ∀ f, (after.wrap f = before.wrap f ∧
      after.didWrapDependencies f = before.didWrapDependencies f) ∨
    (after.wrap f ≠ .none ∧ after.followed f)

theorem OnlyWraps.refl (flags : FileFlags s) : OnlyWraps flags flags := ⟨rfl, fun _ => .inl ⟨rfl, rfl⟩⟩

theorem OnlyWraps.trans {before middle after : FileFlags s} (first : OnlyWraps before middle)
    (second : OnlyWraps middle after) : OnlyWraps before after where
  exportsKind := second.exportsKind.trans first.exportsKind
  wrapped f := by
    rcases second.wrapped f with ⟨sameWrap, sameFollowed⟩ | wrapped
    · unfold FileFlags.followed
      rw [sameWrap, sameFollowed]
      exact first.wrapped f
    · exact .inr wrapped

theorem onlyWraps_setWrapped (flags : FileFlags s) (f : s.File) :
    OnlyWraps flags (flags.setWrapped f) where
  exportsKind := rfl
  wrapped x := by
    by_cases same : x = f
    · subst same
      refine .inr ⟨?_, by simp [FileFlags.followed, FileFlags.setWrapped]⟩
      simp only [FileFlags.setWrapped, Function.update_self]
      cases wrap : flags.wrap x with
      | none =>
          dsimp only
          split
          · exact WrapKind.noConfusion
          · exact WrapKind.noConfusion
      | cjs => exact WrapKind.noConfusion
      | esm => exact WrapKind.noConfusion
    · exact .inl (by simp [FileFlags.setWrapped, same])

theorem wrap_onlyWraps {fuel : Nat} {flags flags' : FileFlags s} {f : s.File}
    (isRun : wrap g fuel flags f = some flags') : OnlyWraps flags flags' := by
  induction fuel generalizing flags flags' f with
  | zero => cases isRun
  | succ fuel ih =>
      rw [wrap] at isRun
      split at isRun
      · cases isRun
        exact .refl _
      · split at isRun
        · cases isRun
          exact .refl _
        · apply (onlyWraps_setWrapped flags f).trans
          apply foldlM_rel .refl (fun _ _ _ => .trans) _ isRun
          intro flags r flags' isStep
          cases target : (g.importRecords f r).sourceIndex with
          | none =>
              simp only [target] at isStep
              cases isStep
              exact .refl _
          | some other =>
              simp only [target] at isStep
              exact ih isStep

/-! ### Step 2 -/

/-- What is followed stays so, and so do dynamic exports. -/
structure Kept (before after : FileFlags s) : Prop where
  followed : ∀ f, before.followed f → after.followed f
  dynamic : ∀ f, IsDynamic (before.exportsKind f) → IsDynamic (after.exportsKind f)

theorem Kept.trans {before middle after : FileFlags s} (first : Kept before middle)
    (second : Kept middle after) : Kept before after where
  followed f now := second.followed f (first.followed f now)
  dynamic f now := second.dynamic f (first.dynamic f now)

/-- How far step 2 has come when the given files are done. -/
structure Progress (g : ScanGraph s) (start : FileFlags s) (done : List s.File)
    (flags : FileFlags s) : Prop where
  grew : Grew g start.exportsKind flags.exportsKind
  dynamic : ∀ f ∈ done, DynamicExports g start.exportsKind f → IsDynamic (flags.exportsKind f)
  kept : ∀ f, start.wrap f ≠ .none → flags.wrap f ≠ .none
  followedWrapped : ∀ f, flags.followed f → flags.wrap f ≠ .none
  sound : ∀ f, flags.wrap f ≠ .none → Wrapped g start f
  closed : ∀ f, flags.followed f → ∀ x ∈ wraps g f, flags.followed x
  notRuntime : ∀ f, flags.followed f → isRuntime f = false
  own : ∀ f ∈ done, start.wrap f ≠ .none → isRuntime f = false → flags.followed f
  imported : ∀ f ∈ done, ∀ x ∈ wraps g f, start.exportsKind x = .cjs → flags.followed x

namespace Progress

variable {start flags flags' : FileFlags s} {done : List s.File}

theorem initial (after : AfterStep1 g start) : Progress g start [] start where
  grew := .refl _
  dynamic f member := by cases member
  kept f wrapped := wrapped
  followedWrapped f followed := by simp [FileFlags.followed, after.notFollowed f] at followed
  sound f wrapped := .step1 wrapped
  closed f followed := by simp [FileFlags.followed, after.notFollowed f] at followed
  notRuntime f followed := by simp [FileFlags.followed, after.notFollowed f] at followed
  own f member := by cases member
  imported f member := by cases member

/-- A call for a file that is to be wrapped. -/
theorem wrap (progress : Progress g start done flags) {fuel : Nat} (enough : s.files < fuel)
    {f : s.File} (isWrapped : isRuntime f = false → Wrapped g start f) :
    ∃ flags', Bundler.wrap g fuel flags f = some flags' ∧ Progress g start done flags' ∧
      Kept flags flags' ∧ (isRuntime f = false → flags'.followed f) := by
  have few : unmarked flags.followed < fuel :=
    (unmarked_le_card _).trans_lt ((Fintype.card_fin _).trans_lt enough)
  obtain ⟨flags', isRun, marks⟩ := wrap_marks g few f
  have only := wrap_onlyWraps isRun
  have wrapped_of_followed (x : s.File) (followed : flags'.followed x) : flags'.wrap x ≠ .none := by
    rcases only.wrapped x with ⟨sameWrap, sameFollowed⟩ | ⟨wrapped, _⟩
    · rw [sameWrap]
      unfold FileFlags.followed at followed
      rw [sameFollowed] at followed
      exact progress.followedWrapped x followed
    · exact wrapped
  -- What is followed now comes of the file by import records.
  have new (x : s.File) (followed : flags'.followed x) (fresh : ¬flags.followed x) :
      Wrapped g start x ∧ isRuntime x = false := by
    obtain ⟨v, isFile, reach⟩ := marks.reached x followed fresh
    obtain ⟨rfl, notRuntime⟩ := mem_toWrap.mp isFile
    apply reach.stays _ (S := fun x => Wrapped g start x ∧ isRuntime x = false)
      ⟨isWrapped notRuntime, notRuntime⟩
    rintro y ⟨wrapped, yNotRuntime⟩ z edge
    obtain ⟨zNotRuntime, r, target⟩ := mem_wraps.mp edge
    exact ⟨.imported wrapped yNotRuntime target zNotRuntime, zNotRuntime⟩
  refine ⟨flags', isRun, ?_, ⟨marks.kept, fun x => only.exportsKind ▸ id⟩,
    fun notRuntime => marks.all f (mem_toWrap.mpr ⟨rfl, notRuntime⟩)⟩
  exact {
    grew := only.exportsKind ▸ progress.grew
    dynamic := only.exportsKind ▸ progress.dynamic
    kept := fun x wrapped => by
      rcases only.wrapped x with ⟨sameWrap, _⟩ | ⟨now, _⟩
      · rw [sameWrap]
        exact progress.kept x wrapped
      · exact now
    followedWrapped := wrapped_of_followed
    sound := fun x wrapped => by
      rcases only.wrapped x with ⟨sameWrap, _⟩ | ⟨_, followed⟩
      · rw [sameWrap] at wrapped
        exact progress.sound x wrapped
      · by_cases early : flags.followed x
        · exact progress.sound x (progress.followedWrapped x early)
        · exact (new x followed early).1
    closed := fun x followed y edge => by
      by_cases early : flags.followed x
      · exact marks.kept y (progress.closed x early y edge)
      · exact marks.closed x followed early y edge
    notRuntime := fun x followed => by
      by_cases early : flags.followed x
      · exact progress.notRuntime x early
      · exact (new x followed early).2
    own := fun x member wrapped notRuntime =>
      marks.kept x (progress.own x member wrapped notRuntime)
    imported := fun x member y edge isCjs =>
      marks.kept y (progress.imported x member y edge isCjs) }

/-- The walk along export stars. -/
theorem stars (progress : Progress g start done flags) {fuel : Nat} (enough : s.files < fuel)
    (f : s.File) :
    ∃ flags', propagateStars g fuel flags f = some flags' ∧ Progress g start done flags' ∧
      Kept flags flags' ∧
      (DynamicExports g start.exportsKind f → IsDynamic (flags'.exportsKind f)) := by
  obtain ⟨kinds, isRun, grew, isExact⟩ := propagateStars_exact g enough flags f
  refine ⟨_, isRun, ?_, ⟨fun _ => id, fun _ => grew.isDynamic⟩, ?_⟩
  · exact { progress with
      grew := progress.grew.trans grew
      dynamic := fun x member isDynamic => grew.isDynamic (progress.dynamic x member isDynamic) }
  · exact fun dynamic => isExact (progress.grew.dynamicExports_after dynamic)

/-- The CommonJS files that a reachable file imports. -/
theorem records (progress : Progress g start done flags) {fuel : Nat} (enough : s.files < fuel)
    {f : s.File} (isReachable : f ∈ g.reachable) (rs : List (Fin (s.records f))) :
    ∃ flags', rs.foldlM (wrapImported g fuel f) flags = some flags' ∧
      Progress g start done flags' ∧ Kept flags flags' ∧
      ∀ r ∈ rs, ∀ other, (g.importRecords f r).sourceIndex = some other →
        start.exportsKind other = .cjs → isRuntime other = false → flags'.followed other := by
  induction rs generalizing flags with
  | nil => exact ⟨flags, rfl, progress, ⟨fun _ => id, fun _ => id⟩, fun _ member => by cases member⟩
  | cons r rs ih =>
      obtain ⟨middle, isStep, after, kept, isFollowed⟩ : ∃ middle,
          wrapImported g fuel f flags r = some middle ∧ Progress g start done middle ∧
            Kept flags middle ∧ ∀ other, (g.importRecords f r).sourceIndex = some other →
              start.exportsKind other = .cjs → isRuntime other = false →
                middle.followed other := by
        unfold wrapImported
        cases target : (g.importRecords f r).sourceIndex with
        | none =>
            refine ⟨flags, rfl, progress, ⟨fun _ => id, fun _ => id⟩, ?_⟩
            intro other isOther
            cases isOther
        | some other =>
            have isCjs := progress.grew.isCjs_iff other
            by_cases now : flags.exportsKind other = .cjs
            · obtain ⟨middle, isRun, after, kept, isFollowed⟩ := progress.wrap enough
                (Wrapped.commonJs isReachable target (isCjs.mp now))
              refine ⟨middle, by simp [now, isRun], after, kept, ?_⟩
              intro _ isOther _ notRuntime
              cases isOther
              exact isFollowed notRuntime
            · refine ⟨flags, by simp [now], progress, ⟨fun _ => id, fun _ => id⟩, ?_⟩
              intro _ isOther before
              cases isOther
              exact absurd (isCjs.mpr before) now
      obtain ⟨flags', isRest, finished, keptRest, areFollowed⟩ := ih after
      refine ⟨flags', ?_, finished, kept.trans keptRest, ?_⟩
      · rw [List.foldlM_cons, isStep]
        exact isRest
      · intro r' member other target isCjs notRuntime
        rcases List.mem_cons.mp member with rfl | inRest
        · exact keptRest.followed other (isFollowed other target isCjs notRuntime)
        · exact areFollowed r' inRest other target isCjs notRuntime

/-- One reachable file. -/
theorem step (progress : Progress g start done flags) {fuel : Nat} (enough : s.files < fuel)
    {f : s.File} (isReachable : f ∈ g.reachable) :
    ∃ flags', wrapDependenciesOf g fuel flags f = some flags' ∧
      Progress g start (done ++ [f]) flags' := by
  obtain ⟨first, isWrap, wrapped, isOwn⟩ : ∃ first,
      wrapOwn g fuel flags f = some first ∧ Progress g start done first ∧
        (start.wrap f ≠ .none → isRuntime f = false → first.followed f) := by
    unfold wrapOwn
    by_cases isWrapped : flags.wrap f = .none
    · refine ⟨flags, by simp [isWrapped], progress, ?_⟩
      intro before
      exact absurd isWrapped (progress.kept f before)
    · obtain ⟨first, isRun, after, _, isFollowed⟩ :=
        progress.wrap enough fun _ => progress.sound f isWrapped
      exact ⟨first, by simp [isWrapped, isRun], after, fun _ => isFollowed⟩
  obtain ⟨second, isStars, walked, keptStars, isDynamic⟩ := wrapped.stars enough f
  obtain ⟨flags', isRecords, finished, keptRecords, areFollowed⟩ :=
    walked.records enough isReachable (List.finRange (s.records f))
  refine ⟨flags', ?_, ?_⟩
  · simp only [wrapDependenciesOf, isWrap, isStars, Option.bind_eq_bind, Option.bind_some]
    exact isRecords
  · exact { finished with
      dynamic := fun x member dynamic => by
        rcases List.mem_append.mp member with before | now
        · exact finished.dynamic x before dynamic
        · rw [List.mem_singleton.mp now] at dynamic ⊢
          exact keptRecords.dynamic f (isDynamic dynamic)
      own := fun x member isWrapped notRuntime => by
        rcases List.mem_append.mp member with before | now
        · exact finished.own x before isWrapped notRuntime
        · rw [List.mem_singleton.mp now] at isWrapped notRuntime ⊢
          exact (keptStars.trans keptRecords).followed f (isOwn isWrapped notRuntime)
      imported := fun x member y edge isCjs => by
        rcases List.mem_append.mp member with before | now
        · exact finished.imported x before y edge isCjs
        · rw [List.mem_singleton.mp now] at edge
          obtain ⟨notRuntime, r, target⟩ := mem_wraps.mp edge
          exact areFollowed r (List.mem_finRange r) y target isCjs notRuntime }

theorem run (progress : Progress g start done flags) {fuel : Nat} (enough : s.files < fuel)
    {rest : List s.File} (areReachable : ∀ f ∈ rest, f ∈ g.reachable) :
    ∃ flags', rest.foldlM (wrapDependenciesOf g fuel) flags = some flags' ∧
      Progress g start (done ++ rest) flags' := by
  induction rest generalizing done flags with
  | nil =>
      rw [List.append_nil]
      exact ⟨flags, rfl, progress⟩
  | cons f rest ih =>
      obtain ⟨middle, isStep, after⟩ :=
        progress.step enough (areReachable f (List.mem_cons_self ..))
      rw [List.append_cons]
      obtain ⟨flags', isRest, finished⟩ :=
        ih after fun x member => areReachable x (List.mem_cons_of_mem _ member)
      refine ⟨flags', ?_, finished⟩
      rw [List.foldlM_cons, isStep]
      exact isRest

/-- All of the least set is wrapped when all reachable files are done. -/
theorem complete (progress : Progress g start g.reachable flags) (after : AfterStep1 g start)
    {f : s.File} (wrapped : Wrapped g start f) : flags.wrap f ≠ .none := by
  suffices followed : isRuntime f = false → flags.followed f by
    cases wrapped with
    | step1 before => exact progress.kept f before
    | commonJs _ _ _ notRuntime => exact progress.followedWrapped f (followed notRuntime)
    | imported _ _ _ notRuntime => exact progress.followedWrapped f (followed notRuntime)
  intro notRuntime
  induction wrapped with
  | step1 before => exact progress.own _ (after.reachable _ before) before notRuntime
  | commonJs isReachable target isCjs _ =>
      exact progress.imported _ isReachable _ (mem_wraps.mpr ⟨notRuntime, _, target⟩) isCjs
  | imported _ fNotRuntime target _ ih =>
      exact progress.closed _ (ih fNotRuntime) _
        (mem_wraps.mpr ⟨notRuntime, _, target⟩)

end Progress

/-- Dynamic exports, as links of some number. -/
theorem dynamicExports_iff {kinds : s.File → ExportsKind} {f : s.File} :
    DynamicExports g kinds f ↔ IsDynamic (kinds f) ∨
      (∃ other, Relation.ReflTransGen (StarLink g) f other ∧ StarFromExternal g other) ∨
      ∃ other, Relation.TransGen (StarLink g) f other ∧ IsDynamic (kinds other) := by
  constructor
  · rintro ⟨other, path, external | dynamic⟩
    · exact .inr (.inl ⟨other, path, external⟩)
    · rcases Relation.reflTransGen_iff_eq_or_transGen.mp path with rfl | links
      · exact .inl dynamic
      · exact .inr (.inr ⟨other, links, dynamic⟩)
  · rintro (dynamic | ⟨other, path, external⟩ | ⟨other, links, dynamic⟩)
    · exact ⟨f, .refl, .inr dynamic⟩
    · exact ⟨other, path, .inl external⟩
    · exact ⟨other, links.to_reflTransGen, .inr dynamic⟩

/-- Step 2 ends on every graph. Then the reachable files with dynamic exports are marked, and
the wrapped files are those of the least set. -/
theorem wrapDependencies_exact (g : ScanGraph s) (exportsKind : s.File → ExportsKind) :
    ∀ fuel, s.files < fuel →
      ∃ flags, wrapDependencies g fuel (figureOutCommonJs g exportsKind) = some flags ∧
        (∀ f ∈ g.reachable, (figureOutCommonJs g exportsKind).exportsKind f ≠ .cjs →
          (flags.exportsKind f = .esmWithDynamicFallback ↔
            (figureOutCommonJs g exportsKind).exportsKind f = .esmWithDynamicFallback ∨
            (∃ other, Relation.ReflTransGen (StarLink g) f other ∧ StarFromExternal g other) ∨
            ∃ other, Relation.TransGen (StarLink g) f other ∧
              IsDynamic ((figureOutCommonJs g exportsKind).exportsKind other))) ∧
        ∀ f, flags.wrap f ≠ .none ↔ Wrapped g (figureOutCommonJs g exportsKind) f := by
  intro fuel enough
  have after := figureOutCommonJs_afterStep1 g exportsKind
  generalize figureOutCommonJs g exportsKind = start at after ⊢
  obtain ⟨flags, isRun, progress⟩ := (Progress.initial after).run enough fun f member => member
  rw [List.nil_append] at progress
  refine ⟨flags, isRun, ?_, fun f => ⟨progress.sound f, progress.complete after⟩⟩
  intro f isReachable notCjs
  have isExact : flags.exportsKind f = .esmWithDynamicFallback ↔
      DynamicExports g start.exportsKind f := by
    constructor
    · intro marked
      rcases progress.grew f with same | ⟨_, _, dynamic⟩
      · exact ⟨f, .refl, .inr (.inr (same.symm.trans marked))⟩
      · exact dynamic
    · intro dynamic
      apply (progress.dynamic f isReachable dynamic).resolve_left
      exact mt (progress.grew.isCjs_iff f).mp notCjs
  rw [isExact, dynamicExports_iff]
  unfold IsDynamic
  simp [notCjs]

/-- Two files that export all of each other, and one of them all of an external module. -/
def starCycle : ScanGraph ⟨3, by decide, fun _ => 1, fun _ => 2⟩ where
  importRecords f r := {
    kind := .stmt
    sourceIndex := if f = 1 then some 2 else if f = 2 ∧ r = 0 then some 1 else none
    isExternalWithoutSideEffects := false
    containsImportStar := false
    containsDefaultAlias := false }
  exportStarRecords f := if f = 0 then [] else [0, 1]
  entryPointKind f := if f = 1 then .userSpecified else .none
  isCss _ := false
  hasLazyExport _ := false
  forceCjsToEsm _ := false
  outputFormat := .esm
  codeSplitting := false
  reachable := [0, 2, 1]
  closed := by decide

theorem wrapDependencies_exact_starCycle :
    ∃ flags, wrapDependencies starCycle 4 (figureOutCommonJs starCycle fun _ => .esm) = some flags ∧
      flags.exportsKind 1 = .esmWithDynamicFallback := by
  obtain ⟨flags, isRun, isExact, _⟩ :=
    wrapDependencies_exact starCycle (fun _ => .esm) 4 (by decide)
  have link : StarLink starCycle 1 2 := ⟨(0 : Fin 2), by decide, by decide⟩
  have external : StarFromExternal starCycle 2 := ⟨⟨(1 : Fin 2), by decide, by decide⟩, by decide⟩
  refine ⟨flags, isRun, (isExact 1 (by decide) (by decide)).mpr (.inr (.inl ⟨2, ?_, external⟩))⟩
  exact .single link

end Bunx.Bundler
