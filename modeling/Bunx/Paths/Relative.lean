/-
Module: Bunx.Paths.Relative
Purpose: The relative path between two normalised paths leads from the one to the other.
Trusted boundary: none
Main exports: IsName, pathOf, relativeNormalizedBuf_eq, relative_leads_back
-/
import Mathlib.Data.List.Induction
import Bunx.Paths.Resolve

namespace Bunx.Paths

open Lib

/-! ### Normalised paths -/

/-- A segment of a normalised path. -/
structure IsName (segment : Bytes) : Prop where
  nonempty : segment ≠ []
  notDot : segment ≠ [dot]
  notDotdot : segment ≠ [dot, dot]
  noSlash : sepPosix ∉ segment
  noBackslash : 0x5c ∉ segment

/-- The absolute path of segments; `/` where there is none. -/
def pathOf (segments : List Bytes) : Bytes := sepPosix :: joinWith sepPosix segments

/-- The directory of segments, with its separator. -/
def dirOf (segments : List Bytes) : Bytes := sepPosix :: ended sepPosix segments

def AllNames (segments : List Bytes) : Prop := ∀ s ∈ segments, IsName s

theorem AllNames.append {front back : List Bytes} (names : AllNames (front ++ back)) :
    AllNames front ∧ AllNames back :=
  ⟨fun s member => names s (List.mem_append_left _ member),
    fun s member => names s (List.mem_append_right _ member)⟩

theorem AllNames.nonempty_noSlash {segments : List Bytes} (names : AllNames segments) :
    ∀ s ∈ segments, s ≠ [] ∧ sepPosix ∉ s :=
  fun s member => ⟨(names s member).nonempty, (names s member).noSlash⟩

theorem mem_joinWith {c : UInt8} {segments : List Bytes}
    (member : c ∈ joinWith sepPosix segments) : c = sepPosix ∨ ∃ s ∈ segments, c ∈ s := by
  induction segments with
  | nil => cases member
  | cons first segments ih =>
      by_cases last : segments = []
      · subst last
        rw [joinWith_single] at member
        exact .inr ⟨first, List.mem_cons_self, member⟩
      · rw [joinWith_cons last, List.mem_append, List.mem_cons] at member
        rcases member with inFirst | isSep | later
        · exact .inr ⟨first, List.mem_cons_self, inFirst⟩
        · exact .inl isSep
        · rcases ih later with isSep | ⟨s, isSegment, inside⟩
          · exact .inl isSep
          · exact .inr ⟨s, List.mem_cons_of_mem first isSegment, inside⟩

theorem pathOf_plain {segments : List Bytes} (names : AllNames segments) :
    IsPlain (pathOf segments) := by
  refine ⟨rfl, fun member => ?_⟩
  rcases List.mem_cons.mp member with isSep | later
  · exact absurd isSep (by decide)
  · rcases mem_joinWith later with isSep | ⟨s, isSegment, inside⟩
    · exact absurd isSep (by decide)
    · exact (names s isSegment).noBackslash inside

theorem pathOf_append (front : List Bytes) {back : List Bytes} (someBack : back ≠ []) :
    pathOf (front ++ back) = dirOf front ++ joinWith sepPosix back := by
  unfold pathOf dirOf
  rw [joinWith_ended front someBack, List.cons_append]

theorem asDir_pathOf {segments : List Bytes} (nonempty : segments ≠ []) :
    asDir (pathOf segments) = dirOf segments := by
  unfold asDir pathOf dirOf
  rw [List.cons_append, joinWith_concat_sep nonempty]

theorem dirOf_getLast? (segments : List Bytes) : (dirOf segments).getLast? = some sepPosix := by
  by_cases none : segments = []
  · subst none
    rfl
  · rw [← asDir_pathOf none, asDir, List.getLast?_append, List.getLast?_singleton]
    rfl

theorem length_pathOf {segments : List Bytes} (nonempty : segments ≠ []) :
    (pathOf segments).length + 1 = (dirOf segments).length := by
  rw [← asDir_pathOf nonempty, asDir, List.length_append, List.length_singleton]

theorem length_le_pathOf {segments : List Bytes} (names : AllNames segments) :
    segments.length ≤ (pathOf segments).length := by
  have separators := count_joinWith fun s member => (names s member).noSlash
  have inside : (joinWith sepPosix segments).count sepPosix ≤ (joinWith sepPosix segments).length :=
    List.count_le_length
  rw [pathOf, List.length_cons]
  omega

/-! ### The common directory -/

theorem takeWhile_segment {segment : Bytes} (noSlash : sepPosix ∉ segment) (rest : Bytes) :
    (segment ++ sepPosix :: rest).takeWhile (· ≠ sepPosix) = segment := by
  have all : ∀ c ∈ segment, decide (c ≠ sepPosix) = true := by
    intro c member
    exact decide_eq_true fun same => noSlash (same ▸ member)
  rw [List.takeWhile_append_of_pos all, List.takeWhile_cons_of_neg (by simp), List.append_nil]

/-- What two texts share with a separator in it begins with their first segment. -/
theorem first_segment_eq {x one two oneRest twoRest : Bytes} (noSlashOne : sepPosix ∉ one)
    (noSlashTwo : sepPosix ∉ two) (inside : sepPosix ∈ x)
    (beginsOne : x <+: one ++ sepPosix :: oneRest)
    (beginsTwo : x <+: two ++ sepPosix :: twoRest) : one = two := by
  obtain ⟨front, back, rfl, noFront⟩ := List.eq_append_cons_of_mem inside
  have isFront {segment rest : Bytes} (noSlash : sepPosix ∉ segment)
      (begins : front ++ sepPosix :: back <+: segment ++ sepPosix :: rest) : front = segment := by
    obtain ⟨more, whole⟩ := begins
    rw [← takeWhile_segment noSlash rest, ← whole, List.append_assoc, List.cons_append,
      takeWhile_segment noFront]
  rw [← isFront noSlashOne beginsOne, isFront noSlashTwo beginsTwo]

/-- What follows the common directory in the directory of a path. -/
def behind (common rest : List Bytes) : Bytes :=
  if rest = [] then (if common = [] then [sepPosix] else [])
  else joinWith sepPosix rest ++ [sepPosix]

theorem asDir_append (common rest : List Bytes) :
    asDir (pathOf (common ++ rest)) = dirOf common ++ behind common rest := by
  unfold behind
  split
  · rename_i none
    subst none
    rw [List.append_nil]
    split
    · rename_i root
      subst root
      rfl
    · rename_i some
      rw [List.append_nil, asDir_pathOf some]
  · rename_i some
    rw [asDir, pathOf_append common some, List.append_assoc]

theorem behind_cons (common : List Bytes) (first : Bytes) (rest : List Bytes) :
    ∃ more, behind common (first :: rest) = first ++ sepPosix :: more := by
  unfold behind
  rw [if_neg (List.cons_ne_nil _ _)]
  by_cases last : rest = []
  · subst last
    exact ⟨[], by rw [joinWith_single]⟩
  · exact ⟨joinWith sepPosix rest ++ [sepPosix], by rw [joinWith_cons last, List.append_assoc]; rfl⟩

/-- Nothing that ends in a separator is common behind the common segments. -/
theorem behind_differ {common left right : List Bytes} (namesLeft : AllNames left)
    (namesRight : AllNames right) (notSame : left ≠ right)
    (differ : ∀ a ∈ left.head?, ∀ b ∈ right.head?, a ≠ b) {x : Bytes}
    (inside : sepPosix ∈ x) (beginsLeft : x <+: behind common left)
    (beginsRight : x <+: behind common right) : False := by
  -- a separator at the start is none of a name's bytes
  have notEnded {first : Bytes} {rest : List Bytes} (isName : IsName first)
      (beginsEnded : x <+: behind common [])
      (beginsName : x <+: behind common (first :: rest)) : False := by
    obtain ⟨more, isBehind⟩ := behind_cons common first rest
    rw [isBehind] at beginsName
    unfold behind at beginsEnded
    rw [if_pos rfl] at beginsEnded
    split at beginsEnded
    · have noNil : sepPosix ∉ ([] : Bytes) := List.not_mem_nil
      exact isName.nonempty (first_segment_eq isName.noSlash noNil inside beginsName beginsEnded)
    · rw [List.prefix_nil.mp beginsEnded] at inside
      cases inside
  cases left with
  | nil =>
      cases right with
      | nil => exact notSame rfl
      | cons first rest =>
          exact notEnded (namesRight first List.mem_cons_self) beginsLeft beginsRight
  | cons one oneRest =>
      cases right with
      | nil => exact notEnded (namesLeft one List.mem_cons_self) beginsRight beginsLeft
      | cons two twoRest =>
          obtain ⟨oneMore, isOne⟩ := behind_cons common one oneRest
          obtain ⟨twoMore, isTwo⟩ := behind_cons common two twoRest
          rw [isOne] at beginsLeft
          rw [isTwo] at beginsRight
          exact differ one rfl two rfl
            (first_segment_eq (namesLeft one List.mem_cons_self).noSlash
              (namesRight two List.mem_cons_self).noSlash inside beginsLeft beginsRight)

theorem pathOf_ne (common : List Bytes) {left right : List Bytes} (namesLeft : AllNames left)
    (namesRight : AllNames right) (notSame : left ≠ right)
    (differ : ∀ a ∈ left.head?, ∀ b ∈ right.head?, a ≠ b) :
    pathOf (common ++ left) ≠ pathOf (common ++ right) := by
  intro same
  have sameDir := congrArg asDir same
  rw [asDir_append, asDir_append] at sameDir
  have sameBehind := List.append_cancel_left sameDir
  have hasSep {rest : List Bytes} (some : rest ≠ []) : sepPosix ∈ behind common rest := by
    obtain ⟨first, more, rfl⟩ := List.exists_cons_of_ne_nil some
    obtain ⟨text, isBehind⟩ := behind_cons common first more
    rw [isBehind]
    simp
  have inside : sepPosix ∈ behind common left := by
    by_cases none : left = []
    · subst none
      rw [sameBehind]
      exact hasSep (Ne.symm notSame)
    · exact hasSep none
  apply behind_differ namesLeft namesRight notSame differ inside (List.prefix_refl _)
  exact sameBehind ▸ List.prefix_refl (behind common left)

/-- The common directory of the two paths is that of their common segments. -/
theorem longest_dirOf {common left right : List Bytes} (namesLeft : AllNames left)
    (namesRight : AllNames right) (notSame : left ≠ right)
    (differ : ∀ a ∈ left.head?, ∀ b ∈ right.head?, a ≠ b) :
    IsLongestDir [asDir (pathOf (common ++ left)), asDir (pathOf (common ++ right))]
      (dirOf common) := by
  rw [asDir_append, asDir_append]
  refine ⟨⟨dirOf_getLast? common, ?_⟩, fun e isDir => ?_⟩
  · intro t member
    simp only [List.mem_cons, List.not_mem_nil, or_false] at member
    rcases member with rfl | rfl
    · exact List.prefix_append _ _
    · exact List.prefix_append _ _
  · by_contra longer
    have beginsLeft := isDir.2 _ List.mem_cons_self
    have beginsRight := isDir.2 _ (List.mem_cons_of_mem _ List.mem_cons_self)
    have whole : dirOf common <+: e :=
      List.prefix_of_prefix_length_le (List.prefix_append _ _) beginsLeft (by omega)
    obtain ⟨x, rfl⟩ := whole
    rw [List.prefix_append_right_inj] at beginsLeft beginsRight
    have someX : x ≠ [] := by
      rintro rfl
      rw [List.append_nil] at longer
      exact longer (Nat.le_refl _)
    have ends := isDir.1
    rw [List.getLast?_append, Option.or_of_isSome (by simpa using someX)] at ends
    exact behind_differ namesLeft namesRight notSame differ (List.mem_of_getLast? ends)
      beginsLeft beginsRight

/-! ### Going up -/

/-- `..`. -/
def dotdot : Bytes := [dot, dot]

/-- The text that goes up. -/
def upward (up : Nat) : Bytes := joinWith sepPosix (List.replicate up dotdot)

theorem upward_succ (up : Nat) :
    upward (up + 1) = upward up ++ if upward up = [] then dotdot else sepPosix :: dotdot := by
  have none : upward up = [] ↔ List.replicate up dotdot = [] := by
    apply joinWith_eq_nil
    intro s member
    rw [List.eq_of_mem_replicate member]
    exact List.cons_ne_nil _ _
  unfold upward at none ⊢
  rw [List.replicate_succ', joinWith_concat]
  by_cases first : List.replicate up dotdot = []
  · rw [if_pos first, if_pos (none.mpr first), none.mpr first, List.nil_append]
  · rw [if_neg first, if_neg (mt none.mp first)]

theorem length_upward (up : Nat) : (upward up).length ≤ 3 * up := by
  induction up with
  | zero => exact Nat.le_refl 0
  | succ up ih =>
      have short : (if upward up = [] then dotdot else sepPosix :: dotdot).length ≤ 3 := by
        split <;> decide
      rw [upward_succ, List.length_append]
      omega

theorem put_upward {cap up : Nat} (fits : 3 * (up + 1) ≤ cap) :
    put cap (upward up) (if upward up = [] then [dot, dot] else [sepPosix, dot, dot]) =
      some (upward (up + 1)) := by
  have written := upward_succ up
  have short := length_upward (up + 1)
  rw [written, List.length_append] at short
  rw [written]
  exact if_pos (Nat.le_trans short fits)

/-- As many `..` as there are separators, and one for the end. -/
theorem writeDotdots_eq {cap : Nat} (front : Bytes) {rest : Bytes}
    (noEnd : rest.getLast? ≠ some sepPosix) (up : Nat)
    (fits : 3 * (up + rest.count sepPosix + 1) ≤ cap) :
    writeDotdots .posix cap (front ++ rest) (rest.length + 1) front.length (upward up) =
      some (upward (up + rest.count sepPosix + 1)) := by
  induction rest generalizing front up with
  | nil =>
      rw [List.count_nil, Nat.add_zero] at fits ⊢
      unfold writeDotdots
      rw [List.append_nil, if_pos (.inl rfl), Platform.separator, put_upward fits]
      rfl
  | cons c rest ih =>
      have here : (front ++ c :: rest)[front.length]? = some c := by
        rw [List.getElem?_append_right (Nat.le_refl _), Nat.sub_self]
        rfl
      have moved : front ++ c :: rest = (front ++ [c]) ++ rest := by
        rw [List.append_assoc, List.singleton_append]
      have next : front.length + 1 = (front ++ [c]).length := by
        rw [List.length_append, List.length_singleton]
      rw [List.length_cons]
      unfold writeDotdots
      rw [here]
      by_cases isSep : c = sepPosix
      · subst isSep
        have more : rest ≠ [] := by
          rintro rfl
          exact noEnd rfl
        have positive := List.length_pos_of_ne_nil more
        rw [List.getLast?_cons_of_ne_nil more] at noEnd
        rw [List.count_cons_self] at fits ⊢
        rw [if_pos (.inr ⟨rfl, by rw [List.length_append, List.length_cons]; omega⟩),
          Platform.separator, put_upward (by omega), Option.bind_eq_bind, Option.bind_some]
        rw [moved, next, ih (front ++ [sepPosix]) noEnd (up + 1) (by omega)]
        rw [Nat.add_right_comm up 1, ← Nat.add_assoc]
      · have noEndRest : rest.getLast? ≠ some sepPosix := by
          by_cases none : rest = []
          · subst none
            simp
          · rw [List.getLast?_cons_of_ne_nil none] at noEnd
            exact noEnd
        rw [List.count_cons_of_ne isSep] at fits ⊢
        rw [if_neg, moved, next, ih (front ++ [c]) noEndRest up fits]
        rintro (ended | ⟨same, _⟩)
        · rw [List.length_append, List.length_cons] at ended
          omega
        · exact isSep (Option.some.inj same)

/-! ### The relative path -/

theorem lastIndexOf_concat (front : Bytes) (c : UInt8) :
    lastIndexOf (front ++ [c]) c = some front.length := by
  unfold lastIndexOf
  rw [List.reverse_append, List.reverse_singleton, List.singleton_append, List.findIdx?_cons,
    if_pos (beq_self_eq_true c), List.length_append, List.length_singleton]
  rfl

theorem lastIndexOf_dirOf (segments : List Bytes) :
    lastIndexOf (dirOf segments) sepPosix = some ((dirOf segments).length - 1) := by
  obtain ⟨front, whole⟩ := List.getLast?_eq_some_iff.mp (dirOf_getLast? segments)
  rw [whole, lastIndexOf_concat, List.length_append, List.length_singleton]
  rfl

theorem pathOf_getLast? {segments : List Bytes} (names : AllNames segments)
    (nonempty : segments ≠ []) : (pathOf segments).getLast? ≠ some sepPosix := by
  have written : joinWith sepPosix segments ≠ [] :=
    mt (joinWith_eq_nil fun s member => (names s member).nonempty).mp nonempty
  unfold pathOf
  rw [List.getLast?_cons_of_ne_nil written]
  exact getLast?_joinWith_ne names.nonempty_noSlash

theorem pathOf_begins (front back : List Bytes) (nonempty : front ≠ []) :
    pathOf front <+: pathOf (front ++ back) := by
  by_cases none : back = []
  · simp [none]
  · rw [pathOf_append front none, ← asDir_pathOf nonempty, asDir, List.append_assoc]
    exact List.prefix_append _ _

section

variable {common left right : List Bytes}

/-- A path as long as the common directory without its separator ends there in a name. -/
theorem not_base (names : AllNames (common ++ right))
    (isBase : (pathOf (common ++ left)).length = (dirOf common).length - 1) :
    (dirOf common).drop 1 ≠ [] ∧
      (pathOf (common ++ right))[((dirOf common).drop 1).length - 1]? ≠ some sepPosix := by
  have nonempty : common ≠ [] := by
    rintro rfl
    rw [pathOf, List.length_cons] at isBase
    cases isBase
  have longer := length_pathOf nonempty
  have positive : 0 < (pathOf common).length := Nat.succ_pos _
  rw [← List.length_pos_iff, List.length_drop]
  refine ⟨by omega, ?_⟩
  have last := pathOf_getLast? names.append.1 nonempty
  rw [List.getLast?_eq_getElem?] at last
  rw [← longer, Nat.add_sub_cancel, prefix_getElem? (pathOf_begins common right nonempty) (by omega)]
  exact last

theorem length_dirOf_pos : 0 < (dirOf common).length := Nat.succ_pos _

/-- Behind the last common separator. -/
theorem drop_pathOf (someRight : right ≠ []) :
    (pathOf (common ++ right)).drop ((dirOf common).length - 1) =
      sepPosix :: joinWith sepPosix right := by
  obtain ⟨front, whole⟩ := List.getLast?_eq_some_iff.mp (dirOf_getLast? common)
  rw [pathOf_append common someRight, whole, List.length_append, List.length_singleton,
    Nat.add_sub_cancel, List.append_assoc, List.drop_left]
  rfl

theorem tailOf_eq (names : AllNames (common ++ left)) (someRight : right ≠ []) :
    tailOf .posix (pathOf (common ++ left)) (pathOf (common ++ right))
        ((dirOf common).length - 1) =
      if left = [] then joinWith sepPosix right else sepPosix :: joinWith sepPosix right := by
  unfold tailOf
  rw [drop_pathOf someRight]
  have positive : 0 < (dirOf common).length := length_dirOf_pos
  by_cases none : left = []
  · subst none
    rw [List.append_nil, if_pos rfl, if_pos]
    · rfl
    · refine ⟨List.cons_ne_nil _ _, ?_, rfl⟩
      by_cases root : common = []
      · subst root
        exact .inr rfl
      · have longer := length_pathOf root
        left
        omega
  · have written : joinWith sepPosix left ≠ [] :=
      mt (joinWith_eq_nil fun s member => (names.append.2 s member).nonempty).mp none
    have more := List.length_pos_of_ne_nil written
    rw [if_neg none, if_neg]
    rintro ⟨_, ends, _⟩
    rw [pathOf_append common none, List.length_append] at ends
    omega

/-- The segments of a relative path. -/
theorem relative_segments (up : Nat) (names : AllNames right) :
    ∀ s ∈ List.replicate up dotdot ++ right, s ≠ [] ∧ sepPosix ∉ s := by
  intro s member
  rcases List.mem_append.mp member with isUp | isName
  · rw [List.eq_of_mem_replicate isUp]
    decide
  · exact names.nonempty_noSlash s isName

/-- The names behind the `..`. -/
theorem appendTail_eq {cap : Nat} (someRight : right ≠ []) (up : Nat)
    (fits : 3 * up + (joinWith sepPosix right).length + 1 ≤ cap) :
    appendTail .posix cap (upward up)
        (if up = 0 then joinWith sepPosix right else sepPosix :: joinWith sepPosix right) =
      some (joinWith sepPosix (List.replicate up dotdot ++ right)) := by
  have short := length_upward up
  unfold appendTail
  by_cases here : up = 0
  · subst here
    have none : upward 0 = [] := rfl
    rw [if_pos rfl, none]
    simp only [List.length_nil, Nat.lt_irrefl, decide_false, gt_iff_lt, Bool.and_false,
      Bool.false_and, Bool.false_eq_true, if_false, Option.bind_eq_bind, Option.bind_some]
    exact if_pos (by rw [List.length_nil]; omega)
  · have someUp : List.replicate up dotdot ≠ [] := by
      simpa using here
    rw [if_neg here, joinWith_append someUp someRight]
    have head : ((sepPosix :: joinWith sepPosix right).head?).any Platform.posix.isSeparator =
        true := rfl
    rw [head]
    simp only [Bool.not_true, Bool.false_and, Bool.false_eq_true, if_false, Option.bind_eq_bind,
      Option.bind_some]
    exact if_pos (by rw [List.length_cons]; omega)

/-- One `..` for each segment behind the common directory. -/
theorem writeDotdots_pathOf {cap : Nat} (names : AllNames (common ++ left))
    (fits : 3 * (pathOf (common ++ left)).length ≤ cap) :
    writeDotdots .posix cap (pathOf (common ++ left))
        ((pathOf (common ++ left)).length + 1 - (1 + 1 + ((dirOf common).length - 1)))
        (1 + 1 + ((dirOf common).length - 1)) [] =
      some (upward left.length) := by
  have positive : 0 < (dirOf common).length := length_dirOf_pos
  by_cases none : left = []
  · subst none
    have ended : (pathOf (common ++ [])).length + 1 -
        (1 + 1 + ((dirOf common).length - 1)) = 0 := by
      rw [List.append_nil]
      by_cases root : common = []
      · subst root
        rfl
      · have longer := length_pathOf root
        omega
    rw [ended]
    rfl
  · have written : joinWith sepPosix left ≠ [] :=
      mt (joinWith_eq_nil fun s member => (names.append.2 s member).nonempty).mp none
    have noEnd := getLast?_joinWith_ne names.append.2.nonempty_noSlash
    have count := count_joinWith fun s member => (names.append.2 s member).noSlash
    have some := List.length_pos_of_ne_nil none
    rw [pathOf_append common none] at fits ⊢
    -- the first byte is none of the separators that are counted
    have notFirst := head?_joinWith_ne names.append.2.nonempty_noSlash
    obtain ⟨b, rest, isText⟩ := List.exists_cons_of_ne_nil written
    rw [isText] at fits noEnd count notFirst ⊢
    have notSep : b ≠ sepPosix := fun same => notFirst (congrArg Option.some same)
    have noEndRest : rest.getLast? ≠ Option.some sepPosix := by
      by_cases last : rest = []
      · subst last
        simp
      · rw [List.getLast?_cons_of_ne_nil last] at noEnd
        exact noEnd
    rw [List.count_cons_of_ne notSep] at count
    have inside : rest.count sepPosix ≤ rest.length := List.count_le_length
    rw [List.length_append, List.length_cons] at fits
    have room : 3 * (0 + rest.count sepPosix + 1) ≤ cap := by omega
    have written := writeDotdots_eq (dirOf common ++ [b]) noEndRest 0 room
    rw [count, List.append_assoc, List.singleton_append, List.length_append,
      List.length_singleton] at written
    have isUp : 0 + (left.length - 1) + 1 = left.length := by omega
    have isIndex : 1 + 1 + ((dirOf common).length - 1) = (dirOf common).length + 1 := by omega
    have isFuel : (dirOf common ++ b :: rest).length + 1 - ((dirOf common).length + 1) =
        rest.length + 1 := by
      rw [List.length_append, List.length_cons]
      omega
    rw [isUp] at written
    rw [isIndex, isFuel]
    exact written

theorem relativeToCommonPath_eq {cap : Nat} (namesLeft : AllNames (common ++ left))
    (namesRight : AllNames (common ++ right)) (notSame : left ≠ right)
    (fits : 3 * (pathOf (common ++ left)).length + (pathOf (common ++ right)).length ≤ cap) :
    relativeToCommonPath .posix true cap (dirOf common) (pathOf (common ++ left))
        (pathOf (common ++ right)) =
      some (joinWith sepPosix (List.replicate left.length dotdot ++ right)) := by
  have positive : 0 < (dirOf common).length := length_dirOf_pos
  have notBase (isBase : (pathOf (common ++ left)).length = (dirOf common).length - 1) :
      (dirOf common).drop 1 ≠ [] ∧
        (pathOf (common ++ right))[((dirOf common).drop 1).length - 1]? ≠ some sepPosix :=
    not_base namesRight isBase
  have isLength : ((dirOf common).drop 1).length = (dirOf common).length - 1 := List.length_drop
  have isBase (both : min (pathOf (common ++ left)).length (pathOf (common ++ right)).length =
        ((dirOf common).drop 1).length ∧
      (pathOf (common ++ right)).length ≥ (pathOf (common ++ left)).length) :
      (pathOf (common ++ left)).length = (dirOf common).length - 1 := by
    rw [← isLength, ← both.1, Nat.min_eq_left both.2]
  have index : (lastIndexOf (dirOf common) Platform.posix.separator).getD 0 =
      (dirOf common).length - 1 := by
    have isLast := lastIndexOf_dirOf common
    rw [Platform.separator, isLast]
    rfl
  have isHead : (if ((pathOf (common ++ left)).head?).any Platform.posix.isSeparator = true
      then 1 else 0) = 1 := rfl
  unfold relativeToCommonPath
  dsimp only
  rw [if_pos (show isAbsolute (dirOf common) = true from rfl), index, isHead,
    if_neg (fun both => (notBase (isBase (of_decide_eq_true both.1))).1 both.2),
    if_neg (fun both => (notBase (isBase (of_decide_eq_true both.1))).2 both.2),
    if_pos (show pathOf (common ++ left) ≠ [] from List.cons_ne_nil _ _),
    writeDotdots_pathOf namesLeft (by omega), Option.bind_eq_bind, Option.bind_some]
  have noEnd := getLast?_joinWith_ne (relative_segments left.length namesRight.append.2)
  by_cases none : right = []
  · subst none
    rw [List.append_nil] at noEnd fits ⊢
    have short : ¬(pathOf common).length > (dirOf common).length - 1 + 1 := by
      by_cases root : common = []
      · subst root
        exact Nat.lt_irrefl 1
      · have longer := length_pathOf root
        omega
    rw [if_neg short, Option.bind_some, if_neg (fun both => noEnd both.2), List.append_nil]
    rfl
  · have isLong : (pathOf (common ++ right)).length > (dirOf common).length - 1 + 1 := by
      have written : joinWith sepPosix right ≠ [] :=
        mt (joinWith_eq_nil fun s member => (namesRight.append.2 s member).nonempty).mp none
      have more := List.length_pos_of_ne_nil written
      rw [pathOf_append common none, List.length_append]
      omega
    have room : 3 * left.length + (joinWith sepPosix right).length + 1 ≤ cap := by
      have few := length_le_pathOf namesLeft
      rw [List.length_append] at few
      rw [pathOf_append common none, List.length_append] at fits
      omega
    have isZero : (left = []) = (left.length = 0) := propext List.length_eq_zero_iff.symm
    rw [if_pos isLong, tailOf_eq namesLeft none]
    simp only [isZero]
    rw [appendTail_eq none left.length room, Option.bind_some,
      if_neg (fun both => noEnd both.2)]
    rfl

/-- As many `..` as the first path has segments of its own, and the other's own segments. -/
theorem relativeNormalizedBuf_eq {cap : Nat} (namesLeft : AllNames (common ++ left))
    (namesRight : AllNames (common ++ right))
    (differ : ∀ a ∈ left.head?, ∀ b ∈ right.head?, a ≠ b)
    (fits : 3 * (pathOf (common ++ left)).length + (pathOf (common ++ right)).length ≤ cap) :
    relativeNormalizedBuf .posix true cap (pathOf (common ++ left)) (pathOf (common ++ right)) =
      some (joinWith sepPosix (List.replicate left.length dotdot ++ right)) := by
  unfold relativeNormalizedBuf
  by_cases same : left = right
  · subst same
    rw [if_pos rfl]
    cases left with
    | nil => rfl
    | cons first rest => exact absurd rfl (differ first rfl first rfl)
  · have notSame := pathOf_ne common namesLeft.append.2 namesRight.append.2 same differ
    have isDirs : directories [pathOf (common ++ left), pathOf (common ++ right)] =
        [asDir (pathOf (common ++ left)), asDir (pathOf (common ++ right))] := by
      apply if_neg
      intro single
      exact notSame (single _ List.mem_cons_self _ (List.mem_cons_of_mem _ List.mem_cons_self))
    have plain : ∀ t ∈ [pathOf (common ++ left), pathOf (common ++ right)], IsPlain t := by
      intro t member
      simp only [List.mem_cons, List.not_mem_nil, or_false] at member
      rcases member with rfl | rfl
      · exact pathOf_plain namesLeft
      · exact pathOf_plain namesRight
    obtain ⟨d, isLongest, isCommon⟩ := longest_few .posix (by simp) plain
    rw [isDirs] at isLongest
    have isDir : d = dirOf common :=
      isLongest.unique List.mem_cons_self
        (longest_dirOf namesLeft.append.2 namesRight.append.2 same differ)
    rw [if_neg notSame, isCommon, isDir, Option.bind_eq_bind, Option.bind_some]
    exact relativeToCommonPath_eq namesLeft namesRight same fits

end

/-! ### Leading back -/

section

variable {common left right : List Bytes}

theorem walkPath_joinWith (stack : List Bytes) {segments : List Bytes}
    (noSlash : ∀ s ∈ segments, sepPosix ∉ s) :
    walkPath stack (joinWith sepPosix segments) = segments.foldl visit stack := by
  by_cases none : segments = []
  · subst none
    exact walk_nil visit_nil stack
  · unfold walkPath walk
    rw [splitOn_joinWith none noSlash]

theorem foldl_visit_names (stack : List Bytes) {segments : List Bytes} (names : AllNames segments) :
    segments.foldl visit stack = stack ++ segments := by
  induction segments generalizing stack with
  | nil => exact (List.append_nil stack).symm
  | cons first segments ih =>
      have isName := names first List.mem_cons_self
      rw [List.foldl_cons, visit_name stack isName.nonempty isName.notDot isName.notDotdot,
        ih _ fun s member => names s (List.mem_cons_of_mem first member),
        List.append_assoc, List.singleton_append]

theorem foldl_visit_up (stack back : List Bytes) :
    (List.replicate back.length dotdot).foldl visit (stack ++ back) = stack := by
  induction back using List.reverseRecOn with
  | nil => exact List.append_nil stack
  | append_singleton back segment ih =>
      rw [List.length_append, List.length_singleton, List.replicate_succ, List.foldl_cons, dotdot,
        visit_dotdot, ← List.append_assoc, List.dropLast_concat]
      exact ih

theorem walkPath_pathOf {segments : List Bytes} (names : AllNames segments) :
    walkPath [] (pathOf segments) = segments := by
  have behindRoot : walkPath [] (pathOf segments) = walkPath [] (joinWith sepPosix segments) :=
    walk_cons_sep visit_nil [] _
  rw [behindRoot, walkPath_joinWith [] fun s member => (names s member).noSlash,
    foldl_visit_names [] names, List.nil_append]

theorem noSegments_iff {up : Nat} :
    List.replicate up dotdot ++ right = [] ↔ up = 0 ∧ right = [] := by
  rw [List.append_eq_nil_iff]
  cases up with
  | zero => simp
  | succ up => simp [List.replicate_succ]

/-- The relative path, as a text. -/
def relativeText (up : Nat) (right : List Bytes) : Bytes :=
  joinWith sepPosix (List.replicate up dotdot ++ right)

theorem relativeText_not_absolute (up : Nat) (names : AllNames right) :
    isAbsolute (relativeText up right) = false :=
  decide_eq_false (head?_joinWith_ne (relative_segments up names))

theorem relativeText_plain (up : Nat) (names : AllNames right) :
    0x5c ∉ relativeText up right := by
  intro member
  rcases mem_joinWith member with isSep | ⟨s, isSegment, inside⟩
  · exact absurd isSep (by decide)
  · rcases List.mem_append.mp isSegment with isUp | isName
    · rw [List.eq_of_mem_replicate isUp] at inside
      exact absurd inside (by decide)
    · exact (names s isName).noBackslash inside

/-- From the one path the relative text goes up to the common segments and down the others. -/
theorem walkPath_relativeText (namesRight : AllNames right) :
    walkPath (common ++ left) (relativeText left.length right) = common ++ right := by
  unfold relativeText
  rw [walkPath_joinWith _ fun s member => (relative_segments left.length namesRight s member).2,
    List.foldl_append, foldl_visit_up, foldl_visit_names common namesRight]

theorem resolve_relativeText (namesLeft : AllNames (common ++ left))
    (namesRight : AllNames right) :
    resolve (pathOf (common ++ left)) [relativeText left.length right] =
      pathOf (common ++ right) := by
  have isStart : startOf (pathOf (common ++ left)) [relativeText left.length right] =
      (pathOf (common ++ left), [relativeText left.length right]) := by
    unfold startOf startOver
    rw [List.foldl_cons, relativeText_not_absolute left.length namesRight]
    rfl
  have isWalk : walkPath [] (joinedText (pathOf (common ++ left))
      [relativeText left.length right]) = common ++ right := by
    unfold joinedText
    rw [isStart]
    dsimp only
    rw [walkPath_joinWith_filter, List.foldl_cons, List.foldl_cons, List.foldl_nil,
      walkPath_pathOf namesLeft, walkPath_relativeText namesRight]
  have noTrailing : ¬((joinedText (pathOf (common ++ left))
      [relativeText left.length right]).getLast? = some sepPosix ∧ common ++ right ≠ []) := by
    rintro ⟨ends, nonempty⟩
    unfold joinedText at ends
    rw [isStart] at ends
    dsimp only at ends
    rw [← getLast?_foldl_glue, List.foldl_cons, List.foldl_nil] at ends
    unfold glue at ends
    have noEnd : (relativeText left.length right).getLast? ≠ some sepPosix :=
      getLast?_joinWith_ne (relative_segments left.length namesRight)
    split at ends
    · -- nothing is added to the path itself
      rename_i none
      have noSegments := (joinWith_eq_nil fun s member =>
        (relative_segments left.length namesRight s member).1).mp none
      obtain ⟨noUp, rfl⟩ := noSegments_iff.mp noSegments
      obtain rfl := List.length_eq_zero_iff.mp noUp
      exact pathOf_getLast? namesLeft nonempty ends
    · rename_i written
      split at ends
      · rw [List.getLast?_append, List.getLast?_cons_of_ne_nil written,
          Option.or_of_isSome (by simpa using written)] at ends
        exact noEnd ends
      · rw [List.getLast?_append, Option.or_of_isSome (by simpa using written)] at ends
        exact noEnd ends
  unfold resolve normalized
  rw [isWalk]
  dsimp only
  rw [if_neg noTrailing, List.append_nil]
  rfl

/-- The `..` segments of the relative text. -/
theorem count_dotdot (up : Nat) (names : AllNames right) :
    ((relativeText up right).splitOn sepPosix).count dotdot = up := by
  have noName : right.count dotdot = 0 := by
    apply List.count_eq_zero.mpr
    intro member
    exact (names dotdot member).notDotdot rfl
  by_cases none : List.replicate up dotdot ++ right = []
  · obtain ⟨rfl, rfl⟩ := noSegments_iff.mp none
    decide
  · unfold relativeText
    rw [splitOn_joinWith none fun s member => (relative_segments up names s member).2,
      List.count_append, List.count_replicate_self, noName, Nat.add_zero]

end

/-- Between two normalised paths, the relative path resolved against the first one is the
second one, and it goes up once for each segment behind the longest common beginning. -/
theorem relative_leads_back (source target : List Bytes) (namesSource : AllNames source)
    (namesTarget : AllNames target) :
    ∃ relative,
      (∀ cap, 3 * (pathOf source).length + (pathOf target).length ≤ cap →
        relativeNormalizedBuf .posix true cap (pathOf source) (pathOf target) = some relative) ∧
      (∀ cap, joinTotal (pathOf source).length [relative] ≤ cap →
        joinAbsStringBuf cap (pathOf source) [relative] = some (pathOf target)) ∧
      (relative.splitOn sepPosix).count dotdot = source.length - commonLength source target := by
  obtain ⟨common, left, right, rfl, rfl, isLength, differ⟩ := commonLength_split source target
  have namesRight := namesTarget.append.2
  refine ⟨relativeText left.length right, fun cap fits => ?_, fun cap fits => ?_, ?_⟩
  · exact relativeNormalizedBuf_eq namesSource namesTarget differ fits
  · have plain := pathOf_plain namesSource
    have noneInParts : ∀ part ∈ [relativeText left.length right], 0x5c ∉ part := by
      intro part member
      rw [List.mem_singleton.mp member]
      exact relativeText_plain left.length namesRight
    rw [joinAbsStringBuf_resolve plain.absolute plain.noBackslash noneInParts (by simp)
      (List.cons_ne_nil _ _) fits, resolve_relativeText namesSource namesRight]
  · rw [count_dotdot left.length namesRight, ← isLength, List.length_append]
    omega

/-- From `/a/b` to `/a/c/d`. -/
theorem relative_leads_back_sample :
    ∃ relative,
      (∀ cap, 3 * 4 + 6 ≤ cap →
        relativeNormalizedBuf .posix true cap [0x2f, 97, 0x2f, 98]
          [0x2f, 97, 0x2f, 99, 0x2f, 100] = some relative) ∧
      (∀ cap, joinTotal 4 [relative] ≤ cap →
        joinAbsStringBuf cap [0x2f, 97, 0x2f, 98] [relative] =
          some [0x2f, 97, 0x2f, 99, 0x2f, 100]) ∧
      (relative.splitOn sepPosix).count dotdot = 1 := by
  have isName {c : UInt8} (letter : c ≠ dot ∧ c ≠ sepPosix ∧ c ≠ 0x5c) : IsName [c] :=
    ⟨List.cons_ne_nil _ _, by simpa using letter.1, by simp, by simpa using letter.2.1.symm,
      by simpa using letter.2.2.symm⟩
  apply relative_leads_back [[97], [98]] [[97], [99], [100]]
  · intro s member
    simp only [List.mem_cons, List.not_mem_nil, or_false] at member
    rcases member with rfl | rfl
    · exact isName (by decide)
    · exact isName (by decide)
  · intro s member
    simp only [List.mem_cons, List.not_mem_nil, or_false] at member
    rcases member with rfl | rfl | rfl
    · exact isName (by decide)
    · exact isName (by decide)
    · exact isName (by decide)

-- From `/a/b` to `/a/bc`: the common bytes are not a segment.
example : relativeNormalizedBuf .posix true 64 [0x2f, 97, 0x2f, 98] [0x2f, 97, 0x2f, 98, 99] =
    some [46, 46, 0x2f, 98, 99] := by decide

end Bunx.Paths
