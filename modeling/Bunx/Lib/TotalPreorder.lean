/-
Module: Bunx.Lib.TotalPreorder
Purpose: Comparisons that are total preorders on some values.
Trusted boundary: none
Main exports: TotalPreorder, totalPreorder_of_key, TotalPreorder.congr
-/
import Mathlib.Data.Set.Defs

namespace Bunx.Lib

open Std

/-- A comparison is a total preorder on some values. -/
structure TotalPreorder {α : Type} (values : Set α) (cmp : α → α → Ordering) : Prop where
  refl : ∀ a ∈ values, cmp a a = .eq
  swap : ∀ a ∈ values, ∀ b ∈ values, cmp a b = (cmp b a).swap
  trans : ∀ a ∈ values, ∀ b ∈ values, ∀ c ∈ values, (cmp a b).isLE → (cmp b c).isLE →
    (cmp a c).isLE

/-- A comparison of keys is one wherever it agrees with a lawful comparison. -/
theorem totalPreorder_of_key {α κ : Type} {values : Set α} {cmp : α → α → Ordering} (key : α → κ)
    {keyCmp : κ → κ → Ordering} [TransCmp keyCmp]
    (agree : ∀ a ∈ values, ∀ b ∈ values, cmp a b = keyCmp (key a) (key b)) :
    TotalPreorder values cmp := by
  constructor
  · intro a isValue
    rw [agree a isValue a isValue]
    exact ReflCmp.compare_self
  · intro a isValue b isValue'
    rw [agree a isValue b isValue', agree b isValue' a isValue]
    exact OrientedCmp.eq_swap
  · intro a isValue b isValue' c isValue''
    rw [agree a isValue b isValue', agree b isValue' c isValue'', agree a isValue c isValue'']
    exact TransCmp.isLE_trans

/-- Values that are equal compare alike with everything. -/
theorem TotalPreorder.congr {α : Type} {values : Set α} {cmp : α → α → Ordering}
    (preorder : TotalPreorder values cmp) {a b c : α} (isA : a ∈ values) (isB : b ∈ values)
    (isC : c ∈ values) (same : cmp a b = .eq) : cmp a c = cmp b c := by
  have below {x y z : α} (isX : x ∈ values) (isY : y ∈ values) (isZ : z ∈ values)
      (equal : cmp x y = .eq) (le : (cmp y z).isLE) : (cmp x z).isLE :=
    preorder.trans x isX y isY z isZ (by rw [equal]; rfl) le
  have above {x y z : α} (isX : x ∈ values) (isY : y ∈ values) (isZ : z ∈ values)
      (equal : cmp x y = .eq) (le : (cmp z x).isLE) : (cmp z y).isLE :=
    preorder.trans z isZ x isX y isY le (by rw [equal]; rfl)
  have same' : cmp b a = .eq := by
    rw [preorder.swap b isB a isA, same]
    rfl
  have lower : (cmp a c).isLE ↔ (cmp b c).isLE :=
    ⟨below isB isA isC same', below isA isB isC same⟩
  have upper : (cmp c a).isLE ↔ (cmp c b).isLE :=
    ⟨above isA isB isC same, above isB isA isC same'⟩
  rw [preorder.swap c isC a isA, preorder.swap c isC b isB] at upper
  cases first : cmp a c <;> cases second : cmp b c <;> simp [first, second] at lower upper <;> rfl

end Bunx.Lib
