/-
Module: Bunx.Bundler.CodeSplitting
Purpose: Which entry points reach which files, and how far each file is from the nearest one.
Trusted boundary: none
Main exports: Reachability, markFileReachableForCodeSplitting, markReachable, LivePath,
  markReachable_exact
-/
import Bunx.Bundler.LinkerGraph
import Bunx.Lib.HopDistance
import Bunx.Lib.Run

namespace Bunx.Bundler

open Bunx.Lib

variable {s : Shape} {n : Nat}

/-! ### The search -/

/-- `distances` and `file_entry_bits`, with one bit for each of `n` entry points. -/
structure Reachability (s : Shape) (n : Nat) where
  distances : s.File → Nat
  entryBits : s.File → Fin n → Bool

def u32Max : Nat := 2 ^ 32 - 1

namespace Reachability

def empty : Reachability s n where
  distances _ := u32Max
  entryBits _ _ := false

def setDistance (ctx : Reachability s n) (f : s.File) (distance : Nat) : Reachability s n :=
  { ctx with distances := Function.update ctx.distances f distance }

def setBit (ctx : Reachability s n) (f : s.File) (i : Fin n) : Reachability s n :=
  { ctx with entryBits := Function.update ctx.entryBits f (Function.update (ctx.entryBits f) i true) }

end Reachability

section Loops

variable (g : LinkerGraph s) (mark : Reachability s n → s.File → Option (Reachability s n))
variable (f : s.File)

def reachRecords (ctx : Reachability s n) : Option (Reachability s n) :=
  (List.finRange (s.records f)).foldlM (fun ctx r =>
    let record := g.importRecords f r
    match record.sourceIndex with
    | some other => if g.isExternalDynamicImport record other f then some ctx else mark ctx other
    | none => some ctx) ctx

def reachDependencies (ctx : Reachability s n) : Option (Reachability s n) :=
  (List.finRange (s.parts f)).foldlM (fun ctx i =>
    (g.part f i).dependencies.foldlM (fun ctx dependency =>
      if dependency.1 ≠ f then mark ctx dependency.1 else some ctx) ctx) ctx

end Loops

def markFileReachableForCodeSplitting (g : LinkerGraph s) (filesLive : s.File → Bool) :
    Nat → Reachability s n → s.File → Fin n → Nat → Option (Reachability s n)
  | 0, _, _, _, _ => none
  | fuel + 1, ctx, f, entryPointsCount, distance =>
      if !filesLive f then some ctx
      else
        let traverseAgain := distance < ctx.distances f
        let ctx := if traverseAgain then ctx.setDistance f distance else ctx
        let outDist := (distance + 1) % 2 ^ 32
        -- A file is not marked more than once.
        if ctx.entryBits f entryPointsCount ∧ ¬traverseAgain then some ctx
        else
          let ctx := ctx.setBit f entryPointsCount
          let mark ctx other :=
            markFileReachableForCodeSplitting g filesLive fuel ctx other entryPointsCount outDist
          if g.isCss f then reachRecords g mark f ctx
          else do
            let ctx ← reachRecords g mark f ctx
            reachDependencies g mark f ctx

/-- The search from every entry point, in order. -/
def markReachable (g : LinkerGraph s) (filesLive : s.File → Bool) (fuel : Nat)
    (entryPoints : Fin n → s.File) : Option (Reachability s n) :=
  (List.finRange n).foldlM (fun ctx i =>
    markFileReachableForCodeSplitting g filesLive fuel ctx (entryPoints i) i 0) .empty

/-! ### Paths -/

/-- A file has an import record for another one that is not an external dynamic import. -/
def Imports (g : LinkerGraph s) (f other : s.File) : Prop :=
  ∃ r, (g.importRecords f r).sourceIndex = some other ∧
    g.isExternalDynamicImport (g.importRecords f r) other f = false

/-- A part of a file depends on a part of another file. -/
def DependsOn (g : LinkerGraph s) (f other : s.File) : Prop :=
  other ≠ f ∧ ∃ i, ∃ p ∈ (g.part f i).dependencies, p.1 = other

/-- The part dependencies of a CSS file lead nowhere. -/
def Follows (g : LinkerGraph s) (f other : s.File) : Prop :=
  Imports g f other ∨ g.isCss f = false ∧ DependsOn g f other

/-- A path of the given length through live files. -/
inductive LivePath (filesLive : s.File → Bool) (edge : s.File → s.File → Prop) :
    Nat → s.File → s.File → Prop where
  | here {f : s.File} (isLive : filesLive f = true) : LivePath filesLive edge 0 f f
  | step {k : Nat} {e f other : s.File} (path : LivePath filesLive edge k e f)
      (follows : edge f other) (isLive : filesLive other = true) :
      LivePath filesLive edge (k + 1) e other

/-! ### What one file leads to -/

/-- The files that are visited from a file if they are live. -/
def live (filesLive : s.File → Bool) (other : s.File) : List s.File :=
  if filesLive other then [other] else []

section Rows

variable (g : LinkerGraph s) (filesLive : s.File → Bool) (f : s.File)

def recordRow (r : Fin (s.records f)) : List s.File :=
  match (g.importRecords f r).sourceIndex with
  | some other =>
      if g.isExternalDynamicImport (g.importRecords f r) other f then [] else live filesLive other
  | none => []

def dependencyRow (dependency : s.PartRef) : List s.File :=
  if dependency.1 ≠ f then live filesLive dependency.1 else []

/-- What a file leads to at once. -/
def followed : List s.File :=
  (List.finRange (s.records f)).flatMap (recordRow g filesLive f) ++
    if g.isCss f then []
    else (List.finRange (s.parts f)).flatMap fun i =>
      (g.part f i).dependencies.flatMap (dependencyRow filesLive f)

end Rows

variable {g : LinkerGraph s} {filesLive : s.File → Bool}

theorem mem_live {x other : s.File} : x ∈ live filesLive other ↔ x = other ∧ filesLive x = true := by
  cases isLive : filesLive other with
  | true => simp +contextual [live, isLive]
  | false => simp +contextual [live, isLive]

theorem mem_recordRow {f x : s.File} {r : Fin (s.records f)} :
    x ∈ recordRow g filesLive f r ↔ (g.importRecords f r).sourceIndex = some x ∧
      g.isExternalDynamicImport (g.importRecords f r) x f = false ∧ filesLive x = true := by
  cases target : (g.importRecords f r).sourceIndex with
  | none => simp [recordRow, target]
  | some other =>
      simp only [recordRow, target, Option.some.injEq]
      by_cases same : other = x
      · subst same
        cases dynamic : g.isExternalDynamicImport (g.importRecords f r) other f with
        | true => simp
        | false => simp [mem_live]
      · have different : x ≠ other := fun isOther => same isOther.symm
        split
        · simp [same]
        · simp [mem_live, same, different]

theorem mem_dependencyRow {f x : s.File} {dependency : s.PartRef} :
    x ∈ dependencyRow filesLive f dependency ↔
      dependency.1 = x ∧ x ≠ f ∧ filesLive x = true := by
  by_cases own : dependency.1 = f
  · simp only [dependencyRow, own, ne_eq, not_true_eq_false, if_false, List.not_mem_nil, false_iff]
    rintro ⟨rfl, notOwn, _⟩
    exact notOwn rfl
  · simp only [dependencyRow, ne_eq, own, not_false_eq_true, if_true, mem_live]
    constructor
    · rintro ⟨rfl, isLive⟩
      exact ⟨rfl, own, isLive⟩
    · rintro ⟨rfl, _, isLive⟩
      exact ⟨rfl, isLive⟩

theorem mem_followed {f x : s.File} :
    x ∈ followed g filesLive f ↔ Follows g f x ∧ filesLive x = true := by
  have records : x ∈ (List.finRange (s.records f)).flatMap (recordRow g filesLive f) ↔
      Imports g f x ∧ filesLive x = true := by
    simp only [List.mem_flatMap, List.mem_finRange, true_and, mem_recordRow, Imports]
    constructor
    · rintro ⟨r, target, dynamic, isLive⟩
      exact ⟨⟨r, target, dynamic⟩, isLive⟩
    · rintro ⟨⟨r, target, dynamic⟩, isLive⟩
      exact ⟨r, target, dynamic, isLive⟩
  have dependencies : (x ∈ (List.finRange (s.parts f)).flatMap fun i =>
      (g.part f i).dependencies.flatMap (dependencyRow filesLive f)) ↔
        DependsOn g f x ∧ filesLive x = true := by
    simp only [List.mem_flatMap, List.mem_finRange, true_and, mem_dependencyRow, DependsOn]
    constructor
    · rintro ⟨i, p, member, isTarget, notOwn, isLive⟩
      exact ⟨⟨notOwn, i, p, member, isTarget⟩, isLive⟩
    · rintro ⟨⟨notOwn, i, p, member, isTarget⟩, isLive⟩
      exact ⟨i, p, member, isTarget, notOwn, isLive⟩
  rw [followed, List.mem_append, records, Follows, or_and_right]
  apply or_congr Iff.rfl
  cases isCss : g.isCss f with
  | true => simp
  | false =>
      rw [if_neg Bool.false_ne_true, dependencies]
      simp

theorem livePath_iff {k : Nat} {e f : s.File} :
    LivePath filesLive (Follows g) k e f ↔
      filesLive e = true ∧ Steps (followed g filesLive) k e f := by
  constructor
  · intro path
    induction path with
    | here isLive => exact ⟨isLive, .refl⟩
    | step _ follows isLive ih =>
        obtain ⟨start, steps⟩ := ih
        exact ⟨start, steps.tail (mem_followed.mpr ⟨follows, isLive⟩)⟩
  · rintro ⟨isLive, steps⟩
    induction steps with
    | refl => exact .here isLive
    | tail _ edge ih =>
        obtain ⟨follows, next⟩ := mem_followed.mp edge
        exact .step (ih isLive) follows next

/-! ### One search -/

/-- What one entry point's search sees of the state. -/
def Reachability.labels (ctx : Reachability s n) (i : Fin n) : Labels s.File where
  dist := ctx.distances
  seen f := ctx.entryBits f i = true

/-- A function that visits a file at distance `d`. -/
def VisitsAt (g : LinkerGraph s) (filesLive : s.File → Bool) (i : Fin n) (d : Nat)
    (mark : Reachability s n → s.File → Option (Reachability s n)) : Prop :=
  ∀ ctx f, Settled (followed g filesLive) u32Max (ctx.labels i) → Deep (ctx.labels i) d →
    ∃ ctx', mark ctx f = some ctx' ∧
      Relaxes (followed g filesLive) u32Max (ctx.labels i) (ctx'.labels i) (live filesLive f) d

section Loops

variable {mark : Reachability s n → s.File → Option (Reachability s n)} {i : Fin n} {d : Nat}
variable {ctx : Reachability s n}

theorem stays_relaxes : ∃ ctx', some ctx = some ctx' ∧
    Relaxes (followed g filesLive) u32Max (ctx.labels i) (ctx'.labels i) [] d :=
  ⟨ctx, rfl, .again fun _ member => by cases member⟩

theorem reachRecords_relaxes (visits : VisitsAt g filesLive i d mark) (f : s.File)
    (isSettled : Settled (followed g filesLive) u32Max (ctx.labels i))
    (deep : Deep (ctx.labels i) d) :
    ∃ ctx', reachRecords g mark f ctx = some ctx' ∧
      Relaxes (followed g filesLive) u32Max (ctx.labels i) (ctx'.labels i)
        ((List.finRange (s.records f)).flatMap (recordRow g filesLive f)) d := by
  apply foldlM_relaxes (Reachability.labels · i) _ _ isSettled deep
  intro r _ ctx isSettled deep
  cases target : (g.importRecords f r).sourceIndex with
  | none =>
      simp only [recordRow, target]
      exact stays_relaxes
  | some other =>
      simp only [recordRow, target]
      cases dynamic : g.isExternalDynamicImport (g.importRecords f r) other f with
      | true => exact stays_relaxes
      | false => exact visits ctx other isSettled deep

theorem reachDependencies_relaxes (visits : VisitsAt g filesLive i d mark) (f : s.File)
    (isSettled : Settled (followed g filesLive) u32Max (ctx.labels i))
    (deep : Deep (ctx.labels i) d) :
    ∃ ctx', reachDependencies g mark f ctx = some ctx' ∧
      Relaxes (followed g filesLive) u32Max (ctx.labels i) (ctx'.labels i)
        ((List.finRange (s.parts f)).flatMap fun part =>
          (g.part f part).dependencies.flatMap (dependencyRow filesLive f)) d := by
  apply foldlM_relaxes (Reachability.labels · i) _ _ isSettled deep
  intro part _ ctx isSettled deep
  apply foldlM_relaxes (Reachability.labels · i) _ _ isSettled deep
  intro dependency _ ctx isSettled deep
  by_cases own : dependency.1 = f
  · simp only [dependencyRow, own, ne_eq, not_true_eq_false, if_false]
    exact stays_relaxes
  · simp only [dependencyRow, ne_eq, own, not_false_eq_true, if_true]
    exact visits ctx dependency.1 isSettled deep

/-- All edges of a file. -/
theorem follow_relaxes (visits : VisitsAt g filesLive i d mark) (f : s.File)
    (isSettled : Settled (followed g filesLive) u32Max (ctx.labels i))
    (deep : Deep (ctx.labels i) d) :
    ∃ ctx', (if g.isCss f then reachRecords g mark f ctx
      else do
        let ctx ← reachRecords g mark f ctx
        reachDependencies g mark f ctx) = some ctx' ∧
      Relaxes (followed g filesLive) u32Max (ctx.labels i) (ctx'.labels i)
        (followed g filesLive f) d := by
  obtain ⟨middle, isRecords, records⟩ := reachRecords_relaxes visits f isSettled deep
  unfold followed
  cases isCss : g.isCss f with
  | true =>
      refine ⟨middle, isRecords, ?_⟩
      rw [if_pos rfl, List.append_nil]
      exact records
  | false =>
      obtain ⟨ctx', isDependencies, dependencies⟩ := reachDependencies_relaxes visits f
        (records.settled isSettled) (deep.mono records.lower records.kept)
      refine ⟨ctx', ?_, ?_⟩
      · rw [if_neg Bool.false_ne_true, isRecords]
        exact isDependencies
      · rw [if_neg Bool.false_ne_true]
        exact records.append dependencies

end Loops

/-- The state in which a file's edges are followed. -/
def Reachability.entered (ctx : Reachability s n) (f : s.File) (i : Fin n) (d : Nat) :
    Reachability s n :=
  (if d < ctx.distances f then ctx.setDistance f d else ctx).setBit f i

theorem sameBit_setDistance (ctx : Reachability s n) (f : s.File) (i : Fin n) (d : Nat) :
    (if d < ctx.distances f then ctx.setDistance f d else ctx).entryBits f i =
      ctx.entryBits f i := by
  split
  · rfl
  · rfl

section Entered

variable (ctx : Reachability s n) (f : s.File) (i : Fin n) (d : Nat)

theorem entered_other (x : s.File) (different : x ≠ f) :
    ((ctx.entered f i d).labels i).dist x = (ctx.labels i).dist x ∧
      (((ctx.entered f i d).labels i).seen x ↔ (ctx.labels i).seen x) := by
  by_cases shorter : d < ctx.distances f
  · simp [Reachability.entered, Reachability.labels, Reachability.setBit,
      Reachability.setDistance, shorter, different]
  · simp [Reachability.entered, Reachability.labels, Reachability.setBit, shorter, different]

theorem entered_dist :
    ((ctx.entered f i d).labels i).dist f = min d ((ctx.labels i).dist f) := by
  by_cases shorter : d < ctx.distances f
  · rw [min_eq_left (show d ≤ (ctx.labels i).dist f from shorter.le)]
    simp [Reachability.entered, Reachability.labels, Reachability.setBit,
      Reachability.setDistance, shorter]
  · rw [min_eq_right (show (ctx.labels i).dist f ≤ d from not_lt.mp shorter)]
    simp [Reachability.entered, Reachability.labels, Reachability.setBit, shorter]

theorem entered_seen : ((ctx.entered f i d).labels i).seen f := by
  simp [Reachability.entered, Reachability.labels, Reachability.setBit]

end Entered

theorem mark_relaxes (g : LinkerGraph s) (filesLive : s.File → Bool) (i : Fin n) {fuel d : Nat}
    (enough : s.files < fuel + d) :
    VisitsAt g filesLive i d
      fun ctx f => markFileReachableForCodeSplitting g filesLive fuel ctx f i d := by
  induction fuel generalizing d with
  | zero =>
      intro ctx f _ deep
      have atMost := deep.le_card
      rw [Fintype.card_fin] at atMost
      omega
  | succ fuel ih =>
      intro ctx f isSettled deep
      simp only [markFileReachableForCodeSplitting]
      cases isLive : filesLive f with
      | false =>
          simp only [live, isLive, Bool.not_false, if_true, Bool.false_eq_true, if_false]
          exact stays_relaxes
      | true =>
          simp only [live, isLive, Bool.not_true, Bool.false_eq_true, if_false, if_true]
          rw [sameBit_setDistance]
          by_cases known : ctx.entryBits f i = true ∧ ¬d < ctx.distances f
          · rw [if_pos known, if_neg known.2]
            refine ⟨ctx, rfl, .again ?_⟩
            intro x member
            rw [List.mem_singleton.mp member]
            exact ⟨known.1, not_lt.mp known.2⟩
          · rw [if_neg known]
            have enters : d < (ctx.labels i).dist f ∨ ¬(ctx.labels i).seen f := by
              rwa [not_and_or, not_not, or_comm] at known
            have deeper : Deep ((ctx.entered f i d).labels i) (d + 1) :=
              deep.enter (entered_other ctx f i d)
                ((entered_dist ctx f i d).trans_le (min_le_left _ _)) (entered_seen ctx f i d)
                enters
            have isShort : d < u32Max := by
              have atMost := deeper.le_card
              rw [Fintype.card_fin] at atMost
              have fits := s.filesFit
              unfold u32Max
              omega
            have settled : Settled (followed g filesLive) u32Max ((ctx.entered f i d).labels i) :=
              isSettled.enter (entered_other ctx f i d)
                ((entered_dist ctx f i d).trans_le (min_le_right _ _)) (entered_seen ctx f i d)
            have noOverflow : (d + 1) % 2 ^ 32 = d + 1 := by
              apply Nat.mod_eq_of_lt
              unfold u32Max at isShort
              omega
            rw [noOverflow]
            obtain ⟨ctx', isRun, edges⟩ := follow_relaxes
              (ih (d := d + 1) (by omega)) f settled deeper
            exact ⟨ctx', isRun, .enter isSettled isShort (entered_other ctx f i d)
              (entered_dist ctx f i d) (entered_seen ctx f i d) enters edges⟩

/-- A search touches no other entry point's bits. -/
def SameBits (i : Fin n) (ctx ctx' : Reachability s n) : Prop :=
  ∀ x j, j ≠ i → ctx'.entryBits x j = ctx.entryBits x j

theorem SameBits.trans {i : Fin n} {ctx ctx' ctx'' : Reachability s n}
    (first : SameBits i ctx ctx') (second : SameBits i ctx' ctx'') : SameBits i ctx ctx'' :=
  fun x j other => (second x j other).trans (first x j other)

theorem entered_sameBits (ctx : Reachability s n) (f : s.File) (i : Fin n) (d : Nat) :
    SameBits i ctx (ctx.entered f i d) := by
  intro x j other
  have same : (if d < ctx.distances f then ctx.setDistance f d else ctx).entryBits =
      ctx.entryBits := by
    split
    · rfl
    · rfl
  unfold Reachability.entered Reachability.setBit
  rw [same]
  by_cases isFile : x = f
  · subst isFile
    simp [other]
  · simp [isFile]

section Frame

variable {mark : Reachability s n → s.File → Option (Reachability s n)} {i : Fin n}
variable {ctx ctx' : Reachability s n} {f : s.File}

theorem foldlM_sameBits {ι : Type} {step : Reachability s n → ι → Option (Reachability s n)}
    (each : ∀ ctx a ctx', step ctx a = some ctx' → SameBits i ctx ctx') {items : List ι}
    (isFold : items.foldlM step ctx = some ctx') : SameBits i ctx ctx' :=
  foldlM_rel (fun _ _ _ _ => rfl) (fun _ _ _ => .trans) each isFold

theorem reachRecords_sameBits
    (each : ∀ ctx f ctx', mark ctx f = some ctx' → SameBits i ctx ctx')
    (isRun : reachRecords g mark f ctx = some ctx') : SameBits i ctx ctx' := by
  apply foldlM_sameBits _ isRun
  intro ctx r ctx' isStep
  dsimp only at isStep
  split at isStep
  · split at isStep
    · cases isStep
      exact fun _ _ _ => rfl
    · exact each _ _ _ isStep
  · cases isStep
    exact fun _ _ _ => rfl

theorem reachDependencies_sameBits
    (each : ∀ ctx f ctx', mark ctx f = some ctx' → SameBits i ctx ctx')
    (isRun : reachDependencies g mark f ctx = some ctx') : SameBits i ctx ctx' := by
  apply foldlM_sameBits _ isRun
  intro ctx part ctx' isPart
  apply foldlM_sameBits _ isPart
  intro ctx dependency ctx' isStep
  split at isStep
  · exact each _ _ _ isStep
  · cases isStep
    exact fun _ _ _ => rfl

theorem follow_sameBits
    (each : ∀ ctx f ctx', mark ctx f = some ctx' → SameBits i ctx ctx')
    (isRun : (if g.isCss f then reachRecords g mark f ctx
      else do
        let ctx ← reachRecords g mark f ctx
        reachDependencies g mark f ctx) = some ctx') : SameBits i ctx ctx' := by
  cases isCss : g.isCss f with
  | true =>
      rw [if_pos isCss] at isRun
      exact reachRecords_sameBits each isRun
  | false =>
      rw [isCss, if_neg Bool.false_ne_true, Option.bind_eq_bind,
        Option.bind_eq_some_iff] at isRun
      obtain ⟨middle, isRecords, isDependencies⟩ := isRun
      exact (reachRecords_sameBits each isRecords).trans
        (reachDependencies_sameBits each isDependencies)

end Frame

theorem mark_sameBits {fuel : Nat} {ctx ctx' : Reachability s n} {f : s.File} {i : Fin n} {d : Nat}
    (isRun : markFileReachableForCodeSplitting g filesLive fuel ctx f i d = some ctx') :
    SameBits i ctx ctx' := by
  induction fuel generalizing ctx ctx' f d with
  | zero => cases isRun
  | succ fuel ih =>
      have each (ctx : Reachability s n) (f : s.File) (ctx' : Reachability s n)
          (isCall : markFileReachableForCodeSplitting g filesLive fuel ctx f i
            ((d + 1) % 2 ^ 32) = some ctx') : SameBits i ctx ctx' := ih isCall
      simp only [markFileReachableForCodeSplitting] at isRun
      cases isLive : filesLive f with
      | false =>
          simp only [isLive, Bool.not_false, if_true] at isRun
          cases isRun
          exact fun _ _ _ => rfl
      | true =>
          simp only [isLive, Bool.not_true, Bool.false_eq_true, if_false] at isRun
          rw [sameBit_setDistance] at isRun
          by_cases known : ctx.entryBits f i = true ∧ ¬d < ctx.distances f
          · rw [if_pos known, if_neg known.2] at isRun
            cases isRun
            exact fun _ _ _ => rfl
          · rw [if_neg known] at isRun
            exact (entered_sameBits ctx f i d).trans (follow_sameBits each isRun)

/-! ### All entry points -/

/-- The state after the searches from some of the entry points. -/
structure Searched (g : LinkerGraph s) (filesLive : s.File → Bool) (entryPoints : Fin n → s.File)
    (done : List (Fin n)) (ctx : Reachability s n) : Prop where
  bits : ∀ i ∈ done, ∀ f, ctx.entryBits f i = true ↔
    ∃ k, LivePath filesLive (Follows g) k (entryPoints i) f
  noBits : ∀ i, i ∉ done → ∀ f, ctx.entryBits f i = false
  start : ∀ i ∈ done, filesLive (entryPoints i) = true → ctx.distances (entryPoints i) = 0
  closed : ∀ f, ctx.distances f < u32Max →
    ∀ x ∈ followed g filesLive f, ctx.distances x ≤ ctx.distances f + 1
  near : ∀ i ∈ done, ∀ f, ctx.entryBits f i = true → ctx.distances f < u32Max
  length : ∀ f, ctx.distances f = u32Max ∨
    ∃ i ∈ done, LivePath filesLive (Follows g) (ctx.distances f) (entryPoints i) f

namespace Searched

variable {entryPoints : Fin n → s.File} {done : List (Fin n)} {ctx : Reachability s n}

theorem empty : Searched g filesLive entryPoints [] .empty where
  bits i member := by cases member
  noBits _ _ _ := rfl
  start i member := by cases member
  closed f finite := absurd finite (lt_irrefl _)
  near i member := by cases member
  length f := .inl rfl

theorem step (searched : Searched g filesLive entryPoints done ctx) {i : Fin n} (new : i ∉ done)
    {fuel : Nat} (enough : s.files < fuel) :
    ∃ ctx', markFileReachableForCodeSplitting g filesLive fuel ctx (entryPoints i) i 0 =
        some ctx' ∧ Searched g filesLive entryPoints (done ++ [i]) ctx' := by
  have fresh (f : s.File) : ¬(ctx.labels i).seen f := by
    simp [Reachability.labels, searched.noBits i new f]
  obtain ⟨ctx', isRun, relaxes⟩ := mark_relaxes g filesLive i (d := 0) enough ctx (entryPoints i)
    (fun f _ finite => searched.closed f finite) (.zero _)
  have same := mark_sameBits isRun
  have distance {f : s.File} (notChanged : ¬Changed (ctx.labels i) (ctx'.labels i) f) :
      ctx'.distances f = ctx.distances f := relaxes.dist_eq notChanged
  have changed_iff (f : s.File) :
      Changed (ctx.labels i) (ctx'.labels i) f ↔ ctx'.entryBits f i = true := by
    constructor
    · rintro (nearer | ⟨seen, _⟩)
      · exact relaxes.nearer f nearer
      · exact seen
    · exact fun seen => .inr ⟨seen, fresh f⟩
  refine ⟨ctx', isRun, ?_⟩
  exact {
    bits := fun j member f => by
      rcases List.mem_append.mp member with before | now
      · have other : j ≠ i := fun isNew => new (isNew ▸ before)
        rw [same f j other]
        exact searched.bits j before f
      · rw [List.mem_singleton.mp now]
        constructor
        · intro bit
          obtain ⟨v, isStart, k, steps⟩ := relaxes.reached f ((changed_iff f).mpr bit)
          obtain ⟨rfl, isLive⟩ := mem_live.mp isStart
          exact ⟨k, livePath_iff.mpr ⟨isLive, steps⟩⟩
        · rintro ⟨k, path⟩
          generalize isStart : entryPoints i = e at path
          induction path with
          | here isLive =>
              subst isStart
              exact (relaxes.all _ (mem_live.mpr ⟨rfl, isLive⟩)).1
          | step _ follows isLive ih =>
              have edge := mem_followed.mpr ⟨follows, isLive⟩
              exact (relaxes.closed _ ((changed_iff _).mpr (ih isStart)) _ edge).1
    noBits := fun j notDone f => by
      rw [List.mem_append, List.mem_singleton, not_or] at notDone
      rw [same f j notDone.2]
      exact searched.noBits j notDone.1 f
    start := fun j member isLive => by
      rcases List.mem_append.mp member with before | now
      · have atStart := searched.start j before isLive
        have lower : ctx'.distances (entryPoints j) ≤ ctx.distances (entryPoints j) :=
          relaxes.lower (entryPoints j)
        omega
      · rw [List.mem_singleton.mp now] at isLive ⊢
        exact Nat.le_zero.mp (relaxes.all _ (mem_live.mpr ⟨rfl, isLive⟩)).2
    closed := fun f finite x edge => by
      by_cases changed : Changed (ctx.labels i) (ctx'.labels i) f
      · exact (relaxes.closed f changed x edge).2
      · rw [distance changed] at finite ⊢
        exact (relaxes.lower x).trans (searched.closed f finite x edge)
    near := fun j member f bit => by
      rcases List.mem_append.mp member with before | now
      · have other : j ≠ i := fun isNew => new (isNew ▸ before)
        rw [same f j other] at bit
        exact (relaxes.lower f).trans_lt (searched.near j before f bit)
      · rw [List.mem_singleton.mp now] at bit
        exact relaxes.short f ((changed_iff f).mpr bit)
    length := fun f => by
      by_cases nearer : ctx'.distances f < ctx.distances f
      · obtain ⟨v, isStart, k, steps, isLength⟩ := relaxes.length f nearer
        obtain ⟨rfl, isLive⟩ := mem_live.mp isStart
        have isPath : ctx'.distances f = k := isLength.trans (Nat.zero_add k)
        rw [isPath]
        exact .inr ⟨i, List.mem_append_right _ (List.mem_singleton_self i),
          livePath_iff.mpr ⟨isLive, steps⟩⟩
      · have kept : ctx'.distances f = ctx.distances f :=
          le_antisymm (relaxes.lower f) (not_lt.mp nearer)
        rw [kept]
        rcases searched.length f with none | ⟨j, member, path⟩
        · exact .inl none
        · exact .inr ⟨j, List.mem_append_left _ member, path⟩ }

theorem loop {rest : List (Fin n)} (distinct : (done ++ rest).Nodup)
    (searched : Searched g filesLive entryPoints done ctx) {fuel : Nat}
    (enough : s.files < fuel) :
    ∃ ctx', rest.foldlM (fun ctx i =>
        markFileReachableForCodeSplitting g filesLive fuel ctx (entryPoints i) i 0) ctx =
          some ctx' ∧ Searched g filesLive entryPoints (done ++ rest) ctx' := by
  induction rest generalizing done ctx with
  | nil =>
      rw [List.append_nil]
      exact ⟨ctx, rfl, searched⟩
  | cons i rest ih =>
      have new : i ∉ done := by
        intro before
        rw [List.nodup_append] at distinct
        exact distinct.2.2 i before i (List.mem_cons_self ..) rfl
      obtain ⟨middle, isRun, after⟩ := searched.step new enough
      rw [List.append_cons] at distinct ⊢
      obtain ⟨ctx', isRest, finished⟩ := ih distinct after
      refine ⟨ctx', ?_, finished⟩
      rw [List.foldlM_cons, isRun]
      exact isRest

/-- No path is shorter than the distance. -/
theorem distance_le (searched : Searched g filesLive entryPoints done ctx) {i : Fin n}
    (member : i ∈ done) {k : Nat} {f : s.File}
    (path : LivePath filesLive (Follows g) k (entryPoints i) f) : ctx.distances f ≤ k := by
  generalize isStart : entryPoints i = e at path
  induction path with
  | here isLive =>
      subst isStart
      exact (searched.start i member isLive).le
  | step path follows isLive ih =>
      have finite := searched.near i member _ ((searched.bits i member _).mpr ⟨_, isStart ▸ path⟩)
      have edge := searched.closed _ finite _ (mem_followed.mpr ⟨follows, isLive⟩)
      exact edge.trans (Nat.add_le_add_right (ih isStart) 1)

theorem distance_path (searched : Searched g filesLive entryPoints done ctx) {i : Fin n}
    (member : i ∈ done) {k : Nat} {f : s.File}
    (path : LivePath filesLive (Follows g) k (entryPoints i) f) :
    ∃ j ∈ done, LivePath filesLive (Follows g) (ctx.distances f) (entryPoints j) f := by
  have finite := searched.near i member f ((searched.bits i member f).mpr ⟨k, path⟩)
  exact (searched.length f).resolve_left finite.ne


end Searched

theorem markReachable_searched (g : LinkerGraph s) (filesLive : s.File → Bool)
    (entryPoints : Fin n → s.File) {fuel : Nat} (enough : s.files < fuel) :
    ∃ ctx, markReachable g filesLive fuel entryPoints = some ctx ∧
      Searched g filesLive entryPoints (List.finRange n) ctx :=
  Searched.empty.loop (List.nodup_finRange n) enough

/-- What the searches from all entry points say: the bits are those of the entry points that
reach the file, and the distance is that of the nearest one. -/
structure IsReachability (edge : s.File → s.File → Prop) (filesLive : s.File → Bool)
    (entryPoints : Fin n → s.File) (ctx : Reachability s n) : Prop where
  entryBits : ∀ f i, ctx.entryBits f i = true ↔ ∃ k, LivePath filesLive edge k (entryPoints i) f
  shortest : ∀ f i k, LivePath filesLive edge k (entryPoints i) f → ctx.distances f ≤ k
  attained : ∀ f, (∃ i k, LivePath filesLive edge k (entryPoints i) f) →
    ∃ i, LivePath filesLive edge (ctx.distances f) (entryPoints i) f
  unreached : ∀ f, (¬∃ i k, LivePath filesLive edge k (entryPoints i) f) →
    ctx.distances f = u32Max

theorem Searched.isReachability {entryPoints : Fin n → s.File} {ctx : Reachability s n}
    (searched : Searched g filesLive entryPoints (List.finRange n) ctx) :
    IsReachability (Follows g) filesLive entryPoints ctx where
  entryBits f i := searched.bits i (List.mem_finRange i) f
  shortest f i k path := searched.distance_le (List.mem_finRange i) path
  attained f := by
    rintro ⟨i, k, path⟩
    obtain ⟨j, _, shortest⟩ := searched.distance_path (List.mem_finRange i) path
    exact ⟨j, shortest⟩
  unreached f notReached := by
    apply (searched.length f).resolve_right
    rintro ⟨i, _, path⟩
    exact notReached ⟨i, _, path⟩

/-- The description leaves no choice. -/
theorem IsReachability.unique {edge : s.File → s.File → Prop} {entryPoints : Fin n → s.File}
    {ctx ctx' : Reachability s n} (is : IsReachability edge filesLive entryPoints ctx)
    (is' : IsReachability edge filesLive entryPoints ctx') : ctx = ctx' := by
  have distances : ctx.distances = ctx'.distances := by
    funext f
    by_cases reached : ∃ i k, LivePath filesLive edge k (entryPoints i) f
    · obtain ⟨i, path⟩ := is.attained f reached
      obtain ⟨i', path'⟩ := is'.attained f reached
      exact le_antisymm (is.shortest f i' _ path') (is'.shortest f i _ path)
    · rw [is.unreached f reached, is'.unreached f reached]
  have entryBits : ctx.entryBits = ctx'.entryBits := by
    funext f i
    exact Bool.eq_iff_iff.mpr ((is.entryBits f i).trans (is'.entryBits f i).symm)
  cases ctx
  cases ctx'
  congr

/-- The searches end on every graph, and what they leave is exact. -/
theorem markReachable_exact (g : LinkerGraph s) (filesLive : s.File → Bool)
    (entryPoints : Fin n → s.File) :
    ∃ ctx : Reachability s n,
      (∀ fuel, s.files < fuel → markReachable g filesLive fuel entryPoints = some ctx) ∧
      IsReachability (Follows g) filesLive entryPoints ctx := by
  obtain ⟨ctx, _, searched⟩ :=
    markReachable_searched g filesLive entryPoints (Nat.lt_succ_self s.files)
  refine ⟨ctx, ?_, searched.isReachability⟩
  intro fuel enough
  obtain ⟨other, isRun, otherSearched⟩ := markReachable_searched g filesLive entryPoints enough
  rw [isRun, otherSearched.isReachability.unique searched.isReachability]

/-- A style sheet with a part that depends on a part of another file. -/
def sheetWithDependency : LinkerGraph ⟨2, by decide, fun _ => 1, fun _ => 0⟩ where
  part f _ := {
    importRecordIndices := []
    dependencies := if f = 0 then [⟨1, 0⟩] else []
    canBeRemovedIfUnused := false
    forceTreeShaking := false
    tag := .none }
  importRecords _ r := r.elim0
  isCss f := f = 0
  isHtml _ := false
  wrap _ := .none
  sideEffects _ := .hasSideEffects
  entryPointKind f := if f = 0 then .userSpecified else .none
  astLen := 2
  treeShaking := true
  ignoreDceAnnotations := false
  codeSplitting := true

/-- Not every part dependency counts: those of a style sheet are not followed. -/
theorem sheet_not_followed : ¬∀ ctx : Reachability _ 1,
    markReachable sheetWithDependency (fun _ => true) 3 (fun _ => 0) = some ctx →
      IsReachability (fun f other =>
        Imports sheetWithDependency f other ∨ DependsOn sheetWithDependency f other)
        (fun _ => true) (fun _ => 0) ctx := by
  intro exact
  have dependsOn : DependsOn sheetWithDependency 0 1 :=
    ⟨by decide, (0 : Fin 1), ⟨1, (0 : Fin 1)⟩, by decide, rfl⟩
  have noBit : (markReachable sheetWithDependency (fun _ => true) 3 (fun _ : Fin 1 => 0)).map
      (fun ctx => ctx.entryBits 1 0) = some false := by decide +kernel
  rw [Option.map_eq_some_iff] at noBit
  obtain ⟨ctx, isRun, isClear⟩ := noBit
  have bit := ((exact ctx isRun).entryBits 1 0).mpr ⟨1, .step (.here rfl) (.inr dependsOn) rfl⟩
  rw [bit] at isClear
  cases isClear

end Bunx.Bundler
