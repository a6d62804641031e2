/-
Module: Bunx.Lib.Segments
Purpose: Texts as segments between separators: joining them, and folding a step over the
  segments of a text where empty segments say nothing; common beginnings of lists.
Trusted boundary: none
Main exports: joinWith, joinWith_concat, splitOn_joinWith, ended, commonLength,
  commonLength_split, walk, walk_append, walk_segment
-/
import Mathlib.Data.List.Basic

namespace Bunx.Lib

variable {α β : Type} [DecidableEq α] {sep : α}

/-! ### Joining -/

/-- The segments with a separator between them. -/
def joinWith (sep : α) (segments : List (List α)) : List α := [sep].intercalate segments

omit [DecidableEq α] in
@[simp] theorem joinWith_nil : joinWith sep ([] : List (List α)) = [] := rfl

omit [DecidableEq α] in
@[simp] theorem joinWith_single (segment : List α) : joinWith sep [segment] = segment :=
  List.intercalate_singleton

omit [DecidableEq α] in
theorem joinWith_cons {segments : List (List α)} (nonempty : segments ≠ []) (first : List α) :
    joinWith sep (first :: segments) = first ++ sep :: joinWith sep segments := by
  unfold joinWith
  rw [List.intercalate_cons_of_ne_nil nonempty, List.append_assoc, List.singleton_append]

omit [DecidableEq α] in
theorem joinWith_append {front back : List (List α)} (someFront : front ≠ [])
    (someBack : back ≠ []) :
    joinWith sep (front ++ back) = joinWith sep front ++ sep :: joinWith sep back := by
  induction front with
  | nil => exact absurd rfl someFront
  | cons first front ih =>
      by_cases last : front = []
      · subst last
        rw [List.singleton_append, joinWith_cons someBack, joinWith_single]
      · rw [List.cons_append, joinWith_cons (List.append_ne_nil_of_left_ne_nil last back),
          ih last, joinWith_cons last, List.append_assoc, List.cons_append]

omit [DecidableEq α] in
/-- One more segment goes behind a separator, and alone where there was none. -/
theorem joinWith_concat (segments : List (List α)) (segment : List α) :
    joinWith sep (segments ++ [segment]) =
      if segments = [] then segment else joinWith sep segments ++ sep :: segment := by
  split
  · rename_i none
    rw [none, List.nil_append, joinWith_single]
  · rename_i some
    rw [joinWith_append some (List.cons_ne_nil _ _), joinWith_single]

omit [DecidableEq α] in
theorem joinWith_eq_nil {segments : List (List α)} (nonempty : ∀ s ∈ segments, s ≠ []) :
    joinWith sep segments = [] ↔ segments = [] := by
  cases segments with
  | nil => simp
  | cons first segments =>
      have some := nonempty first List.mem_cons_self
      by_cases last : segments = []
      · subst last
        rw [joinWith_single]
        simp [some]
      · simp [joinWith_cons last]

omit [DecidableEq α] in
/-- The last byte is the last byte of the last segment. -/
theorem joinWith_getLast? {segments : List (List α)} {segment : List α}
    (nonempty : segment ≠ []) :
    (joinWith sep (segments ++ [segment])).getLast? = segment.getLast? := by
  rw [joinWith_concat]
  split
  · rfl
  · rw [List.getLast?_append, List.getLast?_cons_of_ne_nil nonempty,
      Option.or_of_isSome (by simpa using nonempty)]

theorem splitOn_joinWith {segments : List (List α)} (nonempty : segments ≠ [])
    (noSep : ∀ s ∈ segments, sep ∉ s) : (joinWith sep segments).splitOn sep = segments :=
  List.splitOn_intercalate sep noSep nonempty

omit [DecidableEq α] in
theorem head?_joinWith_ne {segments : List (List α)}
    (names : ∀ s ∈ segments, s ≠ [] ∧ sep ∉ s) :
    (joinWith sep segments).head? ≠ some sep := by
  cases segments with
  | nil =>
      intro first
      cases first
  | cons segment rest =>
      obtain ⟨nonempty, noSep⟩ := names segment List.mem_cons_self
      have sameHead : (joinWith sep (segment :: rest)).head? = segment.head? := by
        by_cases last : rest = []
        · rw [last, joinWith_single]
        · rw [joinWith_cons last, List.head?_append_of_ne_nil segment nonempty]
      rw [sameHead]
      intro first
      exact noSep (List.mem_of_head? first)

omit [DecidableEq α] in
theorem getLast?_joinWith_ne {segments : List (List α)}
    (names : ∀ s ∈ segments, s ≠ [] ∧ sep ∉ s) :
    (joinWith sep segments).getLast? ≠ some sep := by
  rcases List.eq_nil_or_concat segments with rfl | ⟨front, segment, rfl⟩
  · intro last
    cases last
  · obtain ⟨nonempty, noSep⟩ := names segment (by simp)
    rw [List.concat_eq_append, joinWith_getLast? nonempty]
    intro last
    exact noSep (List.mem_of_getLast? last)

/-- The separators are those between the segments. -/
theorem count_joinWith {segments : List (List α)} (noSep : ∀ s ∈ segments, sep ∉ s) :
    (joinWith sep segments).count sep = segments.length - 1 := by
  induction segments with
  | nil => rfl
  | cons first segments ih =>
      have later := ih fun s member => noSep s (List.mem_cons_of_mem first member)
      have inFirst := List.count_eq_zero.mpr (noSep first List.mem_cons_self)
      by_cases last : segments = []
      · subst last
        rw [joinWith_single, inFirst]
        rfl
      · have positive := List.length_pos_of_ne_nil last
        rw [joinWith_cons last, List.count_append, inFirst, List.count_cons_self, later,
          List.length_cons]
        omega

/-! ### Ended segments -/

/-- The segments, each with a separator behind it. -/
def ended (sep : α) (segments : List (List α)) : List α :=
  segments.flatMap fun segment => segment ++ [sep]

omit [DecidableEq α] in
theorem joinWith_concat_sep {segments : List (List α)} (nonempty : segments ≠ []) :
    joinWith sep segments ++ [sep] = ended sep segments := by
  induction segments with
  | nil => exact absurd rfl nonempty
  | cons first segments ih =>
      unfold ended at ih ⊢
      by_cases last : segments = []
      · subst last
        simp
      · rw [joinWith_cons last, List.flatMap_cons, ← ih last]
        simp

omit [DecidableEq α] in
theorem joinWith_ended {back : List (List α)} (front : List (List α)) (someBack : back ≠ []) :
    joinWith sep (front ++ back) = ended sep front ++ joinWith sep back := by
  by_cases none : front = []
  · subst none
    rfl
  · rw [joinWith_append none someBack, ← joinWith_concat_sep none, List.append_assoc,
      List.singleton_append]

/-! ### Common beginnings -/

/-- How many of the first elements are the same. -/
def commonLength {γ : Type} [DecidableEq γ] : List γ → List γ → Nat
  | x :: xs, y :: ys => if x = y then commonLength xs ys + 1 else 0
  | _, _ => 0

/-- Behind what is common the lists end or differ. -/
theorem commonLength_split {γ : Type} [DecidableEq γ] (xs ys : List γ) :
    ∃ common left right, xs = common ++ left ∧ ys = common ++ right ∧
      common.length = commonLength xs ys ∧ ∀ x ∈ left.head?, ∀ y ∈ right.head?, x ≠ y := by
  induction xs generalizing ys with
  | nil => exact ⟨[], [], ys, rfl, rfl, by simp [commonLength], by simp⟩
  | cons x xs ih =>
      cases ys with
      | nil => exact ⟨[], x :: xs, [], rfl, rfl, rfl, by simp⟩
      | cons y ys =>
          by_cases same : x = y
          · subst same
            obtain ⟨common, left, right, isXs, isYs, isLength, differ⟩ := ih ys
            refine ⟨x :: common, left, right, by rw [isXs, List.cons_append],
              by rw [isYs, List.cons_append], ?_, differ⟩
            rw [commonLength, if_pos rfl, List.length_cons, isLength]
          · exact ⟨[], x :: xs, y :: ys, rfl, rfl, by simp [commonLength, same], by simpa using same⟩

/-! ### Walking -/

/-- Fold a step over the segments of a text. -/
def walk (step : β → List α → β) (sep : α) (start : β) (text : List α) : β :=
  (text.splitOn sep).foldl step start

section

variable {step : β → List α → β}

theorem walk_append (start : β) (text rest : List α) :
    walk step sep start (text ++ sep :: rest) = walk step sep (walk step sep start text) rest := by
  unfold walk
  rw [List.splitOn_append_cons_self, List.foldl_append]

theorem walk_single (start : β) {segment : List α} (noSep : sep ∉ segment) :
    walk step sep start segment = step start segment := by
  unfold walk
  rw [List.splitOn_eq_singleton noSep]
  rfl

variable (skips : ∀ b, step b [] = b)

include skips

theorem walk_nil (start : β) : walk step sep start [] = start := by
  rw [walk_single start (List.not_mem_nil), skips]

theorem walk_cons_sep (start : β) (rest : List α) :
    walk step sep start (sep :: rest) = walk step sep start rest := by
  have split : walk step sep start ([] ++ sep :: rest) =
      walk step sep (walk step sep start []) rest := walk_append start [] rest
  rw [List.nil_append, walk_nil skips] at split
  exact split

/-- A segment in front of the end or of a separator is one step. -/
theorem walk_segment (start : β) {segment rest : List α} (noSep : sep ∉ segment)
    (ends : rest = [] ∨ ∃ more, rest = sep :: more) :
    walk step sep start (segment ++ rest) = walk step sep (step start segment) rest := by
  rcases ends with rfl | ⟨more, rfl⟩
  · rw [List.append_nil, walk_single start noSep, walk_nil skips]
  · rw [walk_append, walk_single start noSep, walk_cons_sep skips]

/-- Where a text ends in a separator, what follows is walked behind it. -/
theorem walk_of_getLast? (start : β) {text : List α} (ends : text.getLast? = some sep)
    (rest : List α) :
    walk step sep start (text ++ rest) = walk step sep (walk step sep start text) rest := by
  obtain ⟨front, rfl⟩ := List.getLast?_eq_some_iff.mp ends
  have whole : walk step sep start (front ++ [sep]) =
      walk step sep (walk step sep start front) [] := walk_append start front []
  rw [walk_nil skips] at whole
  rw [List.append_assoc, List.singleton_append, walk_append, whole]

/-- The segments of joined texts are those of the texts, one after the other. -/
theorem walk_joinWith (start : β) (texts : List (List α)) :
    walk step sep start (joinWith sep texts) = texts.foldl (walk step sep) start := by
  induction texts generalizing start with
  | nil => exact walk_nil skips start
  | cons text texts ih =>
      by_cases last : texts = []
      · subst last
        rw [joinWith_single]
        rfl
      · rw [joinWith_cons last, walk_append, ih]
        rfl

end

end Bunx.Lib
