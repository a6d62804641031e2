/-
Module: Bunx.Lib.Forest
Purpose: A forest whose nodes are numbered in the order they are added has
  boundedly many nodes, when siblings carry different letters and the labels
  along every branch are different.
Trusted boundary: none
Main exports: Word, Ancestor, words, forest_bounded
-/
import Mathlib.Data.Set.Card
import Mathlib.Data.Set.Finite.List
import Mathlib.Logic.Relation

namespace Bunx.Lib

variable {α Λ : Type*}

/-- The words shorter than `height` over an alphabet. -/
def words (alphabet : Finset α) (height : ℕ) : Set (List α) :=
  {w | w.length < height ∧ ∀ a ∈ w, a ∈ alphabet}

theorem words_finite (alphabet : Finset α) (height : ℕ) :
    (words alphabet height).Finite := by
  have short := List.finite_length_lt alphabet height
  refine (short.image (List.map Subtype.val)).subset ?_
  rintro w ⟨length, letters⟩
  refine ⟨w.attachWith (· ∈ alphabet) letters, by simpa using length, ?_⟩
  exact List.attachWith_map_subtype_val letters

section Nodes

variable (parent : ℕ → Option ℕ) (letter : ℕ → α)

/-- The letters of the nodes from one node up to its root. -/
inductive Word : ℕ → List α → Prop where
  | root {i : ℕ} (isRoot : parent i = none) : Word i []
  | child {i p : ℕ} {w : List α} (isParent : parent i = some p)
      (rest : Word p w) : Word i (letter i :: w)

/-- `Ancestor parent i a`: node `a` stands properly above node `i`. -/
abbrev Ancestor : ℕ → ℕ → Prop :=
  Relation.TransGen fun i p => parent i = some p

variable {parent letter}

theorem Ancestor.lt (earlier : ∀ i p, parent i = some p → p < i) {i a : ℕ}
    (above : Ancestor parent i a) : a < i := by
  induction above with
  | single isParent => exact earlier _ _ isParent
  | tail _ isParent ih =>
      exact Nat.lt_trans (earlier _ _ isParent) ih

theorem Word.exists_word (letter : ℕ → α)
    (earlier : ∀ i p, parent i = some p → p < i) (i : ℕ) :
    ∃ w, Word parent letter i w := by
  induction i using Nat.strong_induction_on with
  | _ i ih =>
      cases isParent : parent i with
      | none => exact ⟨[], .root isParent⟩
      | some p =>
          rcases ih p (earlier i p isParent) with ⟨w, word⟩
          exact ⟨letter i :: w, .child isParent word⟩

/-- The letters of a branch are those of its nodes below the root. -/
theorem Word.letters (earlier : ∀ i p, parent i = some p → p < i) {n i : ℕ}
    {w : List α} (word : Word parent letter i w) (inside : i < n) :
    ∀ a ∈ w, ∃ j p, j < n ∧ parent j = some p ∧ a = letter j := by
  induction word with
  | root => simp
  | @child i p w isParent _ ih =>
      intro a member
      rcases List.mem_cons.mp member with rfl | above
      · exact ⟨i, p, inside, isParent, rfl⟩
      · exact ih (Nat.lt_trans (earlier i p isParent) inside)
          a above

/-- A node is determined by its word when only one node is a root and siblings
carry different letters. -/
theorem Word.unique {n : ℕ} (earlier : ∀ i p, parent i = some p → p < i)
    (oneRoot : ∀ i < n, parent i = none → i = 0)
    (siblings : ∀ i < n, ∀ j < n, ∀ p, parent i = some p →
      parent j = some p → letter i = letter j → i = j)
    {i j : ℕ} {w : List α} (iInside : i < n) (jInside : j < n)
    (iWord : Word parent letter i w) (jWord : Word parent letter j w) :
    i = j := by
  induction w generalizing i j with
  | nil =>
      cases iWord with
      | root iRoot =>
          cases jWord with
          | root jRoot => rw [oneRoot i iInside iRoot, oneRoot j jInside jRoot]
  | cons a w ih =>
      generalize sameLetter : a :: w = v at iWord
      cases iWord with
      | root => cases sameLetter
      | @child _ p u iParent iRest =>
          generalize sameLetter' : a :: w = v' at jWord
          cases jWord with
          | root => cases sameLetter'
          | @child _ q u' jParent jRest =>
              simp only [List.cons.injEq] at sameLetter sameLetter'
              rcases sameLetter with ⟨iLetter, rfl⟩
              rcases sameLetter' with ⟨jLetter, rfl⟩
              have sameParent : p = q := ih
                (Nat.lt_trans (earlier i p iParent) iInside)
                (Nat.lt_trans (earlier j q jParent) jInside) iRest jRest
              exact siblings i iInside j jInside p iParent (sameParent ▸ jParent)
                (iLetter.symm.trans jLetter)

/-- The nodes of a branch, each with those above it behind it. -/
theorem Word.branch {i : ℕ} {w : List α} (word : Word parent letter i w) :
    ∃ nodes : List ℕ, nodes.length = w.length + 1 ∧
      nodes.Pairwise (Ancestor parent) ∧
      ∀ a ∈ nodes, a = i ∨ Ancestor parent i a := by
  induction word with
  | @root i isRoot => exact ⟨[i], rfl, List.pairwise_singleton _ _, by simp⟩
  | @child i p w isParent _ ih =>
      rcases ih with ⟨nodes, length, pairwise, above⟩
      have aboveChild (a : ℕ) (member : a ∈ nodes) : Ancestor parent i a := by
        rcases above a member with rfl | higher
        · exact .single isParent
        · exact .head isParent higher
      refine ⟨i :: nodes, by simp [length],
        List.pairwise_cons.mpr ⟨aboveChild, pairwise⟩, ?_⟩
      intro a member
      rcases List.mem_cons.mp member with rfl | member
      · exact .inl rfl
      · exact .inr (aboveChild a member)

/-- A forest with one root, finitely many letters that tell siblings apart and
finitely many labels that never repeat along a branch has boundedly many
nodes. -/
theorem forest_bounded {n : ℕ} (parent : ℕ → Option ℕ) (letter : ℕ → α)
    (label : ℕ → Λ) (alphabet : Finset α) (labels : Finset Λ)
    (earlier : ∀ i p, parent i = some p → p < i)
    (oneRoot : ∀ i < n, parent i = none → i = 0)
    (siblings : ∀ i < n, ∀ j < n, ∀ p, parent i = some p →
      parent j = some p → letter i = letter j → i = j)
    (lettered : ∀ i < n, ∀ p, parent i = some p → letter i ∈ alphabet)
    (labelled : ∀ i < n, label i ∈ labels)
    (fresh : ∀ i < n, ∀ a, Ancestor parent i a → label i ≠ label a) :
    n ≤ (words alphabet (labels.card)).ncard := by
  choose word isWord using Word.exists_word letter earlier
  have inWords (i : ℕ) (inside : i < n) :
      word i ∈ words alphabet labels.card := by
    refine ⟨?_, ?_⟩
    · rcases (isWord i).branch with ⟨nodes, length, pairwise, above⟩
      have inRange (a : ℕ) (member : a ∈ nodes) : a < n := by
        rcases above a member with rfl | higher
        · exact inside
        · exact Nat.lt_trans (higher.lt earlier) inside
      have nodup : (nodes.map label).Nodup := by
        rw [List.Nodup, List.pairwise_map]
        refine pairwise.imp_of_mem ?_
        intro a c aMember _ higher
        exact fresh a (inRange a aMember) c higher
      have subset : nodes.map label ⊆ labels.toList := by
        intro l member
        rcases List.mem_map.mp member with ⟨a, aMember, rfl⟩
        exact Finset.mem_toList.mpr (labelled a (inRange a aMember))
      have count := (nodup.subperm subset).length_le
      rw [List.length_map, length, Finset.length_toList] at count
      exact count
    · intro a member
      rcases (isWord i).letters earlier inside a member with
        ⟨j, p, jInside, isParent, rfl⟩
      exact lettered j jInside p isParent
  have injective : Set.InjOn word (Finset.range n) := by
    intro i iInside j jInside same
    exact Word.unique earlier oneRoot siblings (Finset.mem_range.mp iInside)
      (Finset.mem_range.mp jInside) (isWord i) (same ▸ isWord j)
  calc n = (Finset.range n : Set ℕ).ncard := by
        rw [Set.ncard_coe_finset, Finset.card_range]
    _ ≤ (words alphabet labels.card).ncard :=
      Set.ncard_le_ncard_of_injOn word
        (fun i member => inWords i (Finset.mem_range.mp member)) injective
        (words_finite alphabet labels.card)

end Nodes

end Bunx.Lib
