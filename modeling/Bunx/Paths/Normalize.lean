/-
Module: Bunx.Paths.Normalize
Purpose: The normaliser writes the segments of the path that are left when each `..` takes
  the one before it.
Trusted boundary: none
Main exports: visit, IsStack, normalizeLoop_walk, normalizeString_walk
-/
import Mathlib.Data.List.Basic
import Mathlib.Data.List.TakeWhile
import Bunx.Lib.Segments
import Bunx.Paths.ResolvePath

namespace Bunx.Paths

open Lib

/-! ### Segments of a path -/

/-- What a segment does to the segments before it. -/
def visit (stack : List Bytes) (segment : Bytes) : List Bytes :=
  if segment = [] ∨ segment = [dot] then stack
  else if segment = [dot, dot] then stack.dropLast
  else stack ++ [segment]

/-- The segments a path is left with. -/
def walkPath (stack : List Bytes) (path : Bytes) : List Bytes :=
  walk visit sepPosix stack path

@[simp] theorem visit_nil (stack : List Bytes) : visit stack [] = stack := rfl

@[simp] theorem visit_dot (stack : List Bytes) : visit stack [dot] = stack := rfl

@[simp] theorem visit_dotdot (stack : List Bytes) : visit stack [dot, dot] = stack.dropLast :=
  rfl

theorem visit_name (stack : List Bytes) {segment : Bytes} (nonempty : segment ≠ [])
    (notDot : segment ≠ [dot]) (notDotdot : segment ≠ [dot, dot]) :
    visit stack segment = stack ++ [segment] := by
  unfold visit
  rw [if_neg (not_or.mpr ⟨nonempty, notDot⟩), if_neg notDotdot]

/-- Segments as the normaliser keeps them: not empty and without a separator. -/
def IsStack (isSeparator : UInt8 → Bool) (stack : List Bytes) : Prop :=
  ∀ segment ∈ stack, segment ≠ [] ∧ ∀ c ∈ segment, isSeparator c = false

section

variable {isSeparator : UInt8 → Bool}

theorem IsStack.nil : IsStack isSeparator [] := by
  intro segment member
  cases member

theorem IsStack.dropLast {stack : List Bytes} (isStack : IsStack isSeparator stack) :
    IsStack isSeparator stack.dropLast :=
  fun segment member => isStack segment ((List.dropLast_sublist stack).subset member)

theorem IsStack.concat {stack : List Bytes} (isStack : IsStack isSeparator stack)
    {segment : Bytes} (nonempty : segment ≠ [])
    (noSep : ∀ c ∈ segment, isSeparator c = false) :
    IsStack isSeparator (stack ++ [segment]) := by
  intro s member
  rcases List.mem_append.mp member with before | last
  · exact isStack s before
  · obtain rfl := List.mem_singleton.mp last
    exact ⟨nonempty, noSep⟩

theorem IsStack.ne_nil {stack : List Bytes} (isStack : IsStack isSeparator stack) :
    joinWith sepPosix stack = [] ↔ stack = [] :=
  joinWith_eq_nil fun segment member => (isStack segment member).1

/-- What is written never ends in a separator. -/
theorem IsStack.getLast? {stack : List Bytes} (isStack : IsStack isSeparator stack) :
    ((joinWith sepPosix stack).getLast?).any isSeparator = false := by
  rcases List.eq_nil_or_concat stack with rfl | ⟨front, segment, rfl⟩
  · rfl
  · obtain ⟨nonempty, noSep⟩ := isStack segment (by simp)
    rw [List.concat_eq_append, joinWith_getLast? nonempty, List.getLast?_eq_some_getLast nonempty]
    exact noSep _ (List.getLast_mem nonempty)

/-! ### The write cursor -/

/-- The cursor stops at the last separator, or at the start. -/
theorem backTo_stops {out : Bytes} {stop : Nat} (fuel : Nat) (above : stop ≤ fuel)
    (stops : stop = 0 ∨ (out[stop]?).any isSeparator = true)
    (passes : ∀ i, stop < i → i ≤ fuel → (out[i]?).any isSeparator = false) :
    backTo isSeparator out 0 fuel = stop := by
  induction fuel with
  | zero => exact (Nat.le_zero.mp above).symm
  | succ fuel ih =>
      unfold backTo
      rcases Nat.eq_or_lt_of_le above with same | below
      · rcases stops with zero | isSep
        · omega
        · rw [same] at isSep
          rw [isSep, same]
          simp
      · rw [passes (fuel + 1) below (Nat.le_refl _), if_pos ⟨Nat.succ_pos fuel, rfl⟩]
        exact ih (Nat.lt_succ_iff.mp below)
          fun i more less => passes i more (Nat.le_succ_of_le less)

/-- Going back takes the last segment away, with the separator before it. -/
theorem take_backTo {front : List Bytes} {segment : Bytes} (isSep : isSeparator sepPosix = true)
    (isStack : IsStack isSeparator (front ++ [segment])) :
    (joinWith sepPosix (front ++ [segment])).take
        (backTo isSeparator (joinWith sepPosix (front ++ [segment])) 0
          ((joinWith sepPosix (front ++ [segment])).length - 1)) =
      joinWith sepPosix front := by
  obtain ⟨nonempty, noSep⟩ := isStack segment (by simp)
  have notSep (i : Nat) : (segment[i]?).any isSeparator = false := by
    cases byte : segment[i]? with
    | none => rfl
    | some c => exact noSep c (List.mem_of_getElem? byte)
  have positive := List.length_pos_of_ne_nil nonempty
  rw [joinWith_concat]
  split
  · rename_i none
    rw [backTo_stops _ (Nat.zero_le _) (.inl rfl) fun i _ _ => notSep i, none]
    rfl
  · set written := joinWith sepPosix front
    have stops : backTo isSeparator (written ++ sepPosix :: segment) 0
        ((written ++ sepPosix :: segment).length - 1) = written.length := by
      apply backTo_stops
      · rw [List.length_append, List.length_cons]
        omega
      · right
        rw [List.getElem?_append_right (Nat.le_refl _), Nat.sub_self]
        exact isSep
      · intro i behind _
        rw [List.getElem?_append_right (Nat.le_of_lt behind)]
        obtain ⟨k, isK⟩ : ∃ k, i - written.length = k + 1 := ⟨i - written.length - 1, by omega⟩
        rw [isK, List.getElem?_cons_succ]
        exact notSep k
    rw [stops, List.take_left']
    rfl

/-! ### The loop -/

/-- The separators of the rest are all `/`. -/
def OnlySlash (isSeparator : UInt8 → Bool) (text : Bytes) : Prop :=
  ∀ c ∈ text, isSeparator c = true → c = sepPosix

theorem OnlySlash.of_sublist {text other : Bytes} (only : OnlySlash isSeparator text)
    (sublist : other.Sublist text) : OnlySlash isSeparator other :=
  fun c member => only c (sublist.subset member)

theorem OnlySlash.atEnd {rest : Bytes} (only : OnlySlash isSeparator rest)
    (ends : atEnd isSeparator rest = true) :
    rest = [] ∨ ∃ more, rest = sepPosix :: more := by
  cases rest with
  | nil => exact .inl rfl
  | cons c more =>
      right
      exact ⟨more, by rw [only c List.mem_cons_self ends]⟩

/-- An element is up to the next separator. -/
theorem element_split (isSep : isSeparator sepPosix = true) {text : Bytes}
    (only : OnlySlash isSeparator text) :
    ∃ segment rest, text = segment ++ rest ∧
      (text.takeWhile fun b => !isSeparator b) = segment ∧
      (text.dropWhile fun b => !isSeparator b) = rest ∧
      (∀ c ∈ segment, isSeparator c = false) ∧ sepPosix ∉ segment ∧
      (rest = [] ∨ ∃ more, rest = sepPosix :: more) := by
  have noSep : ∀ c ∈ text.takeWhile (fun b => !isSeparator b), isSeparator c = false := by
    intro c member
    simpa using List.mem_takeWhile_imp member
  refine ⟨_, _, (List.takeWhile_append_dropWhile ..).symm, rfl, rfl, noSep, ?_, ?_⟩
  · intro member
    rw [noSep sepPosix member] at isSep
    cases isSep
  · apply (only.of_sublist (List.dropWhile_sublist _)).atEnd
    cases isRest : text.dropWhile fun b => !isSeparator b with
    | nil => rfl
    | cons c more =>
        have first := List.head?_dropWhile_not (fun b => !isSeparator b) text
        rw [isRest] at first
        simpa [atEnd] using first

/-- What the loop takes for an element is neither `.` nor `..`. -/
theorem element_ne_dots {c : UInt8} {rest segment more : Bytes}
    (whole : c :: rest = segment ++ more) (ends : atEnd isSeparator more = true)
    (notSingle : ¬(c = dot ∧ atEnd isSeparator rest = true))
    (notDouble : ¬(c = dot ∧ rest.head? = some dot ∧ atEnd isSeparator rest.tail = true)) :
    segment ≠ [dot] ∧ segment ≠ [dot, dot] := by
  constructor
  · rintro rfl
    obtain ⟨rfl, rfl⟩ := List.cons.inj whole
    exact notSingle ⟨rfl, ends⟩
  · rintro rfl
    obtain ⟨rfl, rfl⟩ := List.cons.inj whole
    exact notDouble ⟨rfl, rfl, ends⟩

/-- Where there is room, the separator and the element are written. -/
theorem put_element {γ : Type} {cap : Nat} {stack : List Bytes}
    (isStack : IsStack isSeparator stack) {segment : Bytes}
    (fits : (joinWith sepPosix stack).length + segment.length +
      (if stack ≠ [] then 1 else 0) ≤ cap) (next : Bytes → Option γ) :
    (do
      let out ←
        if joinWith sepPosix stack ≠ [] ∧
            !((joinWith sepPosix stack).getLast?).any isSeparator
        then put cap (joinWith sepPosix stack) [sepPosix]
        else some (joinWith sepPosix stack)
      let out ← put cap out segment
      next out) = next (joinWith sepPosix (stack ++ [segment])) := by
  rw [isStack.getLast?, joinWith_concat]
  unfold put
  by_cases first : stack = []
  · subst first
    rw [if_neg (not_not_intro rfl), Nat.add_zero] at fits
    rw [if_neg (fun both => both.1 rfl), Option.bind_eq_bind, Option.bind_some]
    dsimp only
    rw [if_pos fits, if_pos rfl]
    rfl
  · rw [if_pos first] at fits
    rw [if_pos ⟨mt isStack.ne_nil.mp first, rfl⟩, if_pos (by rw [List.length_singleton]; omega),
      if_neg first, Option.bind_eq_bind, Option.bind_some]
    dsimp only
    rw [List.length_append, List.length_singleton, if_pos (by omega), List.append_assoc,
      List.singleton_append]
    rfl

/-- The loop leaves the stack of segments; an element needs room for a separator where
something is written already. -/
theorem normalizeLoop_walk (isSep : isSeparator sepPosix = true)
    {cap : Nat} (fuel : Nat) {rest : Bytes} (enough : rest.length ≤ fuel) {stack : List Bytes}
    (isStack : IsStack isSeparator stack) (only : OnlySlash isSeparator rest)
    (fits : (joinWith sepPosix stack).length + rest.length +
      (if stack ≠ [] ∧ atEnd isSeparator rest = false then 1 else 0) ≤ cap) :
    normalizeLoop isSeparator false cap sepPosix fuel rest (joinWith sepPosix stack) 0 =
        some (joinWith sepPosix (walkPath stack rest)) ∧
      IsStack isSeparator (walkPath stack rest) ∧
      (joinWith sepPosix (walkPath stack rest)).length ≤ cap := by
  induction fuel generalizing rest stack with
  | zero =>
      obtain rfl := List.length_eq_zero_iff.mp (Nat.le_zero.mp enough)
      rw [walkPath, walk_nil visit_nil]
      exact ⟨rfl, isStack, by omega⟩
  | succ fuel ih =>
      cases rest with
      | nil =>
          rw [walkPath, walk_nil visit_nil]
          exact ⟨rfl, isStack, by omega⟩
      | cons c rest =>
          have enoughTail : rest.length ≤ fuel := Nat.le_of_succ_le_succ enough
          have onlyTail := only.of_sublist (List.sublist_cons_self c rest)
          rw [List.length_cons] at fits
          unfold normalizeLoop
          dsimp only
          by_cases here : isSeparator c = true
          · -- a separator is passed over
            obtain rfl := only c List.mem_cons_self here
            rw [if_pos here, walkPath, walk_cons_sep visit_nil]
            apply ih enoughTail isStack onlyTail
            split <;> omega
          rw [if_neg here]
          have notAtEnd : atEnd isSeparator (c :: rest) = false := Bool.eq_false_iff.mpr here
          rw [notAtEnd] at fits
          by_cases single : c = dot ∧ atEnd isSeparator rest = true
          · obtain ⟨rfl, ends⟩ := single
            have isDot : walkPath stack ([dot] ++ rest) = walkPath (visit stack [dot]) rest :=
              walk_segment visit_nil stack (by decide) (onlyTail.atEnd ends)
            rw [List.singleton_append, visit_dot] at isDot
            rw [if_pos ⟨rfl, ends⟩, isDot]
            apply ih enoughTail isStack onlyTail
            rw [ends]
            simp only [Bool.true_eq_false, and_false, if_false]
            omega
          rw [if_neg single]
          by_cases double : c = dot ∧ rest.head? = some dot ∧ atEnd isSeparator rest.tail = true
          · obtain ⟨rfl, second, ends⟩ := double
            obtain ⟨more, rfl⟩ := List.head?_eq_some_iff.mp second
            rw [List.tail_cons] at ends
            have onlyMore := onlyTail.of_sublist (List.sublist_cons_self dot more)
            have isDotdot : walkPath stack ([dot, dot] ++ more) =
                walkPath (visit stack [dot, dot]) more :=
              walk_segment visit_nil stack (by decide) (onlyMore.atEnd ends)
            rw [visit_dotdot, List.cons_append, List.singleton_append] at isDotdot
            rw [if_pos ⟨rfl, rfl, ends⟩, isDotdot, List.tail_cons]
            have enoughMore : more.length ≤ fuel := Nat.le_of_succ_le enoughTail
            rw [List.length_cons] at fits
            rcases List.eq_nil_or_concat stack with rfl | ⟨front, segment, isConcat⟩
            · -- at the root there is nothing to take away
              have none : ¬(joinWith sepPosix ([] : List Bytes)).length > 0 := Nat.lt_irrefl 0
              rw [if_neg none, if_neg Bool.false_ne_true]
              apply ih enoughMore IsStack.nil onlyMore
              rw [if_neg (fun both => both.1 rfl)]
              omega
            · rw [List.concat_eq_append] at isConcat
              subst isConcat
              have written : joinWith sepPosix (front ++ [segment]) ≠ [] :=
                mt isStack.ne_nil.mp (List.append_ne_nil_of_right_ne_nil _ (List.cons_ne_nil _ _))
              have shorter : (joinWith sepPosix front).length ≤
                  (joinWith sepPosix (front ++ [segment])).length := by
                rw [← take_backTo isSep isStack]
                exact List.length_take_le' _ _
              rw [if_pos (List.length_pos_of_ne_nil written), take_backTo isSep isStack,
                List.dropLast_concat]
              have isFront := isStack.dropLast
              rw [List.dropLast_concat] at isFront
              apply ih enoughMore isFront onlyMore
              rw [ends]
              simp only [Bool.true_eq_false, and_false, if_false]
              omega
          rw [if_neg double]
          obtain ⟨segment, more, whole, isSegment, isMore, noSep, noSlash, ends⟩ :=
            element_split isSep only
          have endsMore : atEnd isSeparator more = true := by
            rcases ends with rfl | ⟨further, rfl⟩
            · rfl
            · exact isSep
          obtain ⟨notDot, notDotdot⟩ := element_ne_dots whole endsMore single double
          have nonempty : segment ≠ [] := by
            rintro rfl
            rw [List.nil_append] at whole
            rw [← whole, notAtEnd] at endsMore
            cases endsMore
          have isName : walkPath stack (segment ++ more) =
              walkPath (stack ++ [segment]) more := by
            rw [← visit_name stack nonempty notDot notDotdot]
            exact walk_segment visit_nil stack noSlash ends
          have onlyMore : OnlySlash isSeparator more := by
            apply only.of_sublist
            rw [whole]
            exact List.sublist_append_right segment more
          have lengths : rest.length + 1 = segment.length + more.length := by
            rw [← List.length_cons, whole, List.length_append]
          have positive := List.length_pos_of_ne_nil nonempty
          simp only [and_true] at fits
          have room : (joinWith sepPosix stack).length + segment.length +
              (if stack ≠ [] then 1 else 0) ≤ cap := by omega
          rw [isSegment, isMore, whole, isName, put_element isStack room]
          apply ih (by omega) (isStack.concat nonempty noSep) onlyMore
          rw [endsMore]
          simp only [Bool.true_eq_false, and_false, if_false]
          rw [joinWith_concat]
          split
          · omega
          · rename_i some
            rw [if_pos some] at fits
            rw [List.length_append, List.length_cons]
            omega

end

/-! ### The whole string -/

theorem walkPath_concat_sep (stack : List Bytes) (path : Bytes) :
    walkPath stack (path ++ [sepPosix]) = walkPath stack path := by
  have whole : walkPath stack (path ++ [sepPosix]) = walk visit sepPosix (walkPath stack path) [] :=
    walk_append stack path []
  rw [whole, walk_nil visit_nil]

/-- Without a backslash the two separators are one. -/
theorem onlySlash_loose {text : Bytes} (noBackslash : 0x5c ∉ text) :
    OnlySlash Platform.loose.isSeparator text := by
  intro c member isSep
  have notBackslash : c ≠ 0x5c := fun same => noBackslash (same ▸ member)
  simpa [Platform.isSeparator, notBackslash] using isSep

/-- The normalised path: its segments, and a separator where it ended in one. -/
def normalized (path : Bytes) : Bytes :=
  let segments := walkPath [] path
  joinWith sepPosix segments ++
    if path.getLast? = some sepPosix ∧ segments ≠ [] then [sepPosix] else []

theorem normalizeLoop_path {path : Bytes} (noBackslash : 0x5c ∉ path) {cap : Nat}
    (fits : path.length ≤ cap) :
    normalizeLoop Platform.loose.isSeparator false cap sepPosix path.length path [] 0 =
        some (joinWith sepPosix (walkPath [] path)) ∧
      IsStack Platform.loose.isSeparator (walkPath [] path) ∧
      (joinWith sepPosix (walkPath [] path)).length ≤ cap :=
  normalizeLoop_walk rfl path.length (Nat.le_refl _) IsStack.nil (onlySlash_loose noBackslash)
    (by simpa using fits)

theorem isStack_walkPath {path : Bytes} (noBackslash : 0x5c ∉ path) :
    IsStack Platform.loose.isSeparator (walkPath [] path) :=
  (normalizeLoop_path noBackslash (Nat.le_refl _)).2.1

theorem length_walkPath_le {path : Bytes} (noBackslash : 0x5c ∉ path) :
    (joinWith sepPosix (walkPath [] path)).length ≤ path.length :=
  (normalizeLoop_path noBackslash (Nat.le_refl _)).2.2

/-- A separator that is kept was one of the path's own. -/
theorem length_normalized_le {path : Bytes} (noBackslash : 0x5c ∉ path) :
    (normalized path).length ≤ path.length := by
  unfold normalized
  dsimp only
  split
  · rename_i both
    obtain ⟨front, rfl⟩ := List.getLast?_eq_some_iff.mp both.1
    have noFront : (0x5c : UInt8) ∉ front := fun member =>
      noBackslash (List.mem_append_left _ member)
    have bound := length_walkPath_le noFront
    rw [walkPath_concat_sep, List.length_append, List.length_append]
    exact Nat.add_le_add_right bound 1
  · rw [List.append_nil]
    exact length_walkPath_le noBackslash

theorem normalizeString_walk {path : Bytes} (noBackslash : 0x5c ∉ path) {cap : Nat}
    (fits : path.length ≤ cap) :
    normalizeStringBuf false true path cap = some (normalized path) := by
  have isStack := isStack_walkPath noBackslash
  have bound := length_normalized_le noBackslash
  obtain ⟨ran, _, _⟩ := normalizeLoop_path noBackslash fits
  have notLast : (joinWith sepPosix (walkPath [] path)).getLast? ≠ some sepPosix := by
    intro last
    have none := isStack.getLast?
    rw [last] at none
    cases none
  unfold normalized at bound ⊢
  unfold normalizeStringBuf normalizeStringGeneric
  rw [ran, Option.bind_eq_bind, Option.bind_some]
  dsimp only
  by_cases trailing : path.getLast? = some sepPosix ∧ walkPath [] path ≠ []
  · dsimp only at bound
    rw [if_pos trailing, List.length_append] at bound
    rw [if_pos trailing, if_pos ⟨rfl, mt isStack.ne_nil.mp trailing.2, trailing.1, notLast⟩]
    exact if_pos (Nat.le_trans bound fits)
  · rw [if_neg trailing, List.append_nil, if_neg]
    · rfl
    · rintro ⟨_, nonempty, ends, _⟩
      exact trailing ⟨ends, mt isStack.ne_nil.mpr nonempty⟩

end Bunx.Paths
