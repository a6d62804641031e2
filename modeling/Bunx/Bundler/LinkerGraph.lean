/-
Module: Bunx.Bundler.LinkerGraph
Purpose: The module graph as the linker has it: files with their parts and import records, and
  what the linker reads of them.
Trusted boundary: none
Main exports: Shape, ImportRecord, Part, LinkerGraph, LinkerGraph.isExternalDynamicImport
-/
import Mathlib.Algebra.Ring.Int.Defs
import Mathlib.Algebra.Ring.Nat
import Mathlib.Data.Fintype.Sigma

namespace Bunx.Bundler

scoped instance two_neZero : NeZero 2 := ⟨by decide⟩

inductive ImportKind where
  | entryPointRun
  | entryPointBuild
  | stmt
  | require
  | dynamic
  | requireResolve
  | at
  | atConditional
  | url
  | composes
  | htmlManifest
  | internal
deriving DecidableEq

inductive PartTag where
  | none
  | jsxImport
  | runtime
  | cjsImports
  | reactFastRefresh
  | dirnameFilename
  | bunTest
  | deadDueToInlining
  | commonjsNamedExport
  | importToConvertFromRequire
deriving DecidableEq

inductive SideEffects where
  | hasSideEffects
  | noSideEffectsPackageJson
  | noSideEffectsEmptyAst
  | noSideEffectsPureData
deriving DecidableEq

inductive WrapKind where
  | none
  | cjs
  | esm
deriving DecidableEq

inductive ExportsKind where
  | none
  | cjs
  | esm
  | esmWithDynamicFallback
  | esmWithDynamicFallbackFromCjs
deriving DecidableEq

inductive Format where
  | esm
  | iife
  | cjs
  | internalBakeDev
deriving DecidableEq

def Format.keepEs6ImportExportSyntax (format : Format) : Bool := format = .esm

inductive EntryPointKind where
  | none
  | userSpecified
  | dynamicImport
  | html
deriving DecidableEq

def EntryPointKind.isEntryPoint (kind : EntryPointKind) : Bool := kind ≠ .none

/-- How many files there are, and how many parts and import records each of them has. -/
structure Shape where
  files : Nat
  /-- A source index is a `u32`, and the greatest one is not valid. -/
  filesFit : files < 2 ^ 32
  parts : Fin files → Nat
  records : Fin files → Nat

namespace Shape

abbrev File (s : Shape) : Type := Fin s.files

/-- A part of some file. -/
abbrev PartRef (s : Shape) : Type := (f : s.File) × Fin (s.parts f)

end Shape

/-- `sourceIndex` is `none` where the import was not resolved to a file of the graph. -/
structure ImportRecord (File : Type) where
  kind : ImportKind
  sourceIndex : Option File
  isExternalWithoutSideEffects : Bool
  containsImportStar : Bool
  containsDefaultAlias : Bool

structure Part (s : Shape) (records : Nat) where
  importRecordIndices : List (Fin records)
  dependencies : List s.PartRef
  canBeRemovedIfUnused : Bool
  forceTreeShaking : Bool
  tag : PartTag

/-- The columns of the graph that the linker's passes read, and its options. -/
structure LinkerGraph (s : Shape) where
  part : (f : s.File) → Fin (s.parts f) → Part s (s.records f)
  importRecords : (f : s.File) → Fin (s.records f) → ImportRecord s.File
  isCss : s.File → Bool
  isHtml : s.File → Bool
  wrap : s.File → WrapKind
  sideEffects : s.File → SideEffects
  entryPointKind : s.File → EntryPointKind
  /-- `graph.ast` may be shorter than the list of files. -/
  astLen : Nat
  treeShaking : Bool
  ignoreDceAnnotations : Bool
  codeSplitting : Bool

namespace LinkerGraph

variable {s : Shape} (g : LinkerGraph s)

/-- The import records of a file, in order. -/
def recordList (f : s.File) : List (ImportRecord s.File) :=
  (List.finRange (s.records f)).map (g.importRecords f)

/-- The parts of a file, in order. -/
def partList (f : s.File) : List (Part s (s.records f)) :=
  (List.finRange (s.parts f)).map (g.part f)

def isExternalDynamicImport (record : ImportRecord s.File) (other sourceIndex : s.File) : Bool :=
  g.codeSplitting && record.kind = .dynamic && (g.entryPointKind other).isEntryPoint &&
    other ≠ sourceIndex

end LinkerGraph

end Bunx.Bundler
