/-
Module: Bunx.Bundler.ScanImportsAndExports
Purpose: The first two steps of the scan of imports and exports: which files must be CommonJS,
  and what follows for the files that import them or export all that they export.
Trusted boundary: none
Main exports: ScanGraph, FileFlags, figureOutCommonJs, wrap,
  hasDynamicExportsDueToExportStar, wrapDependencies
-/
import Bunx.Bundler.LinkerGraph
import Mathlib.Logic.Function.Basic

namespace Bunx.Bundler

/-- The columns that the scan reads. All files have an AST. -/
structure ScanGraph (s : Shape) where
  importRecords : (f : s.File) → Fin (s.records f) → ImportRecord s.File
  exportStarRecords : (f : s.File) → List (Fin (s.records f))
  entryPointKind : s.File → EntryPointKind
  isCss : s.File → Bool
  hasLazyExport : s.File → Bool
  forceCjsToEsm : s.File → Bool
  outputFormat : Format
  codeSplitting : Bool
  reachable : List s.File
  /-- The reachable files were found by following import records. -/
  closed : ∀ f ∈ reachable, ∀ r other, (importRecords f r).sourceIndex = some other →
    other ∈ reachable

/-- The columns that the scan writes. -/
structure FileFlags (s : Shape) where
  exportsKind : s.File → ExportsKind
  wrap : s.File → WrapKind
  didWrapDependencies : s.File → Bool

namespace FileFlags

variable {s : Shape} (flags : FileFlags s)

def setWrap (f : s.File) (wrap : WrapKind) : FileFlags s :=
  { flags with wrap := Function.update flags.wrap f wrap }

/-- The file is CommonJS and is wrapped as such. -/
def setCjs (f : s.File) : FileFlags s :=
  { flags.setWrap f .cjs with exportsKind := Function.update flags.exportsKind f .cjs }

/-- `wrap` as it is set by the function of that name. -/
def setWrapped (f : s.File) : FileFlags s :=
  { flags with
    didWrapDependencies := Function.update flags.didWrapDependencies f true
    wrap := Function.update flags.wrap f
      (match flags.wrap f with
      | .none =>
          match flags.exportsKind f with
          | .cjs => .cjs
          | _ => .esm
      | wrap => wrap) }

end FileFlags

variable {s : Shape} (g : ScanGraph s)

/-- `Index::RUNTIME` -/
def isRuntime (f : s.File) : Bool := f.val = 0

/-! ### Step 1 -/

/-- A file that is imported by `require()`, or by `import()` without code splitting. -/
def requireFile (flags : FileFlags s) (other : s.File) : FileFlags s :=
  if flags.exportsKind other = .esm then flags.setWrap other .esm else flags.setCjs other

def figureOutRecord (f : s.File) (flags : FileFlags s) (r : Fin (s.records f)) : FileFlags s :=
  let record := g.importRecords f r
  match record.sourceIndex with
  | none => flags
  | some other =>
      match record.kind with
      | .stmt =>
          -- Such an import needs the namespace object of a file without any exports.
          let flags :=
            if (record.containsImportStar || record.containsDefaultAlias) &&
                !g.hasLazyExport other && !g.forceCjsToEsm other &&
                flags.exportsKind other = .none then
              flags.setCjs other
            else flags
          if record.containsDefaultAlias && g.forceCjsToEsm other then flags.setCjs other
          else flags
      | .require => requireFile flags other
      | .dynamic => if !g.codeSplitting then requireFile flags other else flags
      | _ => flags

def figureOutFile (flags : FileFlags s) (f : s.File) : FileFlags s :=
  if g.isCss f then flags
  else
    let flags := (List.finRange (s.records f)).foldl (figureOutRecord g f) flags
    if flags.exportsKind f = .cjs ∧ ((g.entryPointKind f).isEntryPoint = false ∨
        g.outputFormat = .iife ∨ g.outputFormat = .esm) then
      flags.setWrap f .cjs
    else flags

/-- Step 1: which modules must be CommonJS. Before it no file is wrapped. -/
def figureOutCommonJs (exportsKind : s.File → ExportsKind) : FileFlags s :=
  g.reachable.foldl (figureOutFile g)
    { exportsKind := exportsKind, wrap := fun _ => .none, didWrapDependencies := fun _ => false }

/-! ### Step 2 -/

def wrap : Nat → FileFlags s → s.File → Option (FileFlags s)
  | 0, _, _ => none
  | fuel + 1, flags, f =>
      if flags.didWrapDependencies f then some flags
      -- The runtime always comes first.
      else if isRuntime f then some flags
      else
        (List.finRange (s.records f)).foldlM (fun flags r =>
          match (g.importRecords f r).sourceIndex with
          | some other => wrap fuel flags other
          | none => some flags) (flags.setWrapped f)

/-- What the walk along export stars reads and writes. -/
structure StarWalk (s : Shape) where
  exportsKind : s.File → ExportsKind
  exportStarMap : s.File → Bool

def StarWalk.setDynamic (walk : StarWalk s) (f : s.File) : StarWalk s :=
  { walk with exportsKind := Function.update walk.exportsKind f .esmWithDynamicFallback }

def StarWalk.visit (walk : StarWalk s) (f : s.File) : StarWalk s :=
  { walk with exportStarMap := Function.update walk.exportStarMap f true }

/-- The export stars of a file, until one makes its exports dynamic. -/
def followStars (visitFile : StarWalk s → s.File → Option (StarWalk s × Bool)) (f : s.File) :
    StarWalk s → List (Fin (s.records f)) → Option (StarWalk s × Bool)
  | walk, [] => some (walk, false)
  | walk, id :: ids =>
      match (g.importRecords f id).sourceIndex with
      | none =>
          if (g.entryPointKind f).isEntryPoint = false ∨
              g.outputFormat.keepEs6ImportExportSyntax = false then
            some (walk.setDynamic f, true)
          else followStars visitFile f walk ids
      | some other =>
          if other = f then followStars visitFile f walk ids
          else do
            let (walk, isDynamic) ← visitFile walk other
            if isDynamic then some (walk.setDynamic f, true)
            else followStars visitFile f walk ids

def hasDynamicExportsDueToExportStar :
    Nat → StarWalk s → s.File → Option (StarWalk s × Bool)
  | 0, _, _ => none
  | fuel + 1, walk, f =>
      if walk.exportsKind f = .cjs ∨ walk.exportsKind f = .esmWithDynamicFallback then
        some (walk, true)
      -- Cycles of export stars end here.
      else if walk.exportStarMap f then some (walk, false)
      else
        followStars g (hasDynamicExportsDueToExportStar fuel) f (walk.visit f)
          (g.exportStarRecords f)

/-- The walk that begins with an empty map. -/
def propagateStars (fuel : Nat) (flags : FileFlags s) (f : s.File) : Option (FileFlags s) :=
  if (g.exportStarRecords f).isEmpty then some flags
  else do
    let (walk, _) ← hasDynamicExportsDueToExportStar g fuel
      { exportsKind := flags.exportsKind, exportStarMap := fun _ => false } f
    some { flags with exportsKind := walk.exportsKind }

/-- Whatever imports a CommonJS file needs its wrapper. -/
def wrapImported (fuel : Nat) (f : s.File) (flags : FileFlags s) (r : Fin (s.records f)) :
    Option (FileFlags s) :=
  match (g.importRecords f r).sourceIndex with
  | some other => if flags.exportsKind other = .cjs then wrap g fuel flags other else some flags
  | none => some flags

/-- A file that was found to need a wrapper passes it on. -/
def wrapOwn (fuel : Nat) (flags : FileFlags s) (f : s.File) : Option (FileFlags s) :=
  if flags.wrap f ≠ .none then wrap g fuel flags f else some flags

def wrapDependenciesOf (fuel : Nat) (flags : FileFlags s) (f : s.File) :
    Option (FileFlags s) := do
  let flags ← wrapOwn g fuel flags f
  let flags ← propagateStars g fuel flags f
  (List.finRange (s.records f)).foldlM (wrapImported g fuel f) flags

/-- Step 2: what follows from the CommonJS files. -/
def wrapDependencies (fuel : Nat) (flags : FileFlags s) : Option (FileFlags s) :=
  g.reachable.foldlM (wrapDependenciesOf g fuel) flags

end Bunx.Bundler
