/-
Module: Bunx.Paths.Resolve
Purpose: Joining absolute and relative parts gives the path that resolving them one after the
  other names.
Trusted boundary: none
Main exports: resolve, joinAbsStringBuf_resolve, join_resolves
-/
import Mathlib.Data.List.Induction
import Bunx.Paths.CommonDirectory
import Bunx.Paths.Normalize

namespace Bunx.Paths

open Lib

/-! ### What is to be named -/

/-- An absolute part starts over, another one goes behind what is there. -/
def startOver (start : Bytes × List Bytes) (part : Bytes) : Bytes × List Bytes :=
  if isAbsolute part then (part, []) else (start.1, start.2 ++ [part])

/-- The last absolute part, or the directory, and the parts behind it. -/
def startOf (cwd : Bytes) (parts : List Bytes) : Bytes × List Bytes :=
  parts.foldl startOver (cwd, [])

/-- The text of the parts; an empty one adds nothing. -/
def joinedText (cwd : Bytes) (parts : List Bytes) : Bytes :=
  let start := startOf cwd parts
  joinWith sepPosix ((start.1 :: start.2).filter (· ≠ []))

/-- `/`, the segments that are left, and a separator where the text ended in one. -/
def resolve (cwd : Bytes) (parts : List Bytes) : Bytes :=
  sepPosix :: normalized (joinedText cwd parts)

/-! ### Starting over -/

theorem lastAbsolute_eq (fuel partI : Nat) (cwd : Bytes) (parts : List Bytes)
    (few : parts.length < 2 ^ 16) (enough : parts.length ≤ partI + fuel) :
    lastAbsolute fuel partI cwd parts =
      (parts.drop partI).foldl startOver (cwd, parts.take partI) := by
  induction fuel generalizing partI cwd parts with
  | zero =>
      rw [Nat.add_zero] at enough
      rw [List.drop_of_length_le enough, List.take_of_length_le enough]
      rfl
  | succ fuel ih =>
      unfold lastAbsolute
      rw [Nat.mod_eq_of_lt few]
      split
      · rename_i inside
        rw [List.getElem?_eq_getElem inside, List.drop_eq_getElem_cons inside, List.foldl_cons]
        dsimp only
        unfold startOver
        split
        · rw [ih 0 _ _ (by rw [List.length_drop]; omega)
            (by rw [List.length_drop]; omega)]
          rfl
        · rw [ih (partI + 1) _ _ few (by omega), ← List.take_append_getElem inside]
          rfl
      · rename_i outside
        rw [List.drop_of_length_le (Nat.not_lt.mp outside),
          List.take_of_length_le (Nat.not_lt.mp outside)]
        rfl

/-- Starting over only makes the text shorter. -/
theorem joinTotal_startOver (start : Bytes × List Bytes) (parts : List Bytes) :
    joinTotal (parts.foldl startOver start).1.length (parts.foldl startOver start).2 ≤
      joinTotal start.1.length (start.2 ++ parts) := by
  induction parts generalizing start with
  | nil => rw [List.append_nil]; exact Nat.le_refl _
  | cons part parts ih =>
      apply Nat.le_trans (ih (startOver start part))
      unfold startOver joinTotal
      split
      · simp only [List.nil_append, List.map_append, List.map_cons, List.sum_append,
          List.sum_cons]
        omega
      · simp [Nat.add_assoc]

theorem joinTotal_startOf (cwd : Bytes) (parts : List Bytes) :
    joinTotal (startOf cwd parts).1.length (startOf cwd parts).2 ≤ joinTotal cwd.length parts :=
  joinTotal_startOver (cwd, []) parts

/-- Texts of the start are texts of the directory and the parts. -/
theorem mem_startOver {start : Bytes × List Bytes} {parts : List Bytes} {text : Bytes}
    (member : text ∈ (parts.foldl startOver start).1 :: (parts.foldl startOver start).2) :
    text ∈ start.1 :: start.2 ∨ text ∈ parts := by
  induction parts generalizing start with
  | nil => exact .inl member
  | cons part parts ih =>
      rcases ih member with before | later
      · unfold startOver at before
        split at before
        · obtain rfl := List.mem_singleton.mp before
          exact .inr List.mem_cons_self
        · rcases List.mem_cons.mp before with rfl | inParts
          · exact .inl List.mem_cons_self
          · rcases List.mem_append.mp inParts with old | new
            · exact .inl (List.mem_cons_of_mem _ old)
            · obtain rfl := List.mem_singleton.mp new
              exact .inr List.mem_cons_self
      · exact .inr (List.mem_cons_of_mem part later)

theorem isAbsolute_startOver {start : Bytes × List Bytes} (parts : List Bytes)
    (absolute : isAbsolute start.1 = true) :
    isAbsolute (parts.foldl startOver start).1 = true := by
  induction parts generalizing start with
  | nil => exact absolute
  | cons part parts ih =>
      apply ih
      unfold startOver
      split
      · assumption
      · exact absolute

/-! ### The text in the scratch -/

/-- A part behind the text. -/
def glue (text part : Bytes) : Bytes :=
  if part = [] then text
  else if text ≠ [] ∧ text.getLast? ≠ some sepPosix then text ++ sepPosix :: part
  else text ++ part

theorem length_glue (text part : Bytes) :
    (glue text part).length ≤ text.length + (part.length + 1) := by
  unfold glue
  split
  · omega
  · split
    · rw [List.length_append, List.length_cons]
    · rw [List.length_append]
      omega

theorem appendParts_eq {cap : Nat} (parts : List Bytes) {text : Bytes}
    (fits : text.length + (parts.map fun part => part.length + 1).sum ≤ cap) :
    appendParts cap text parts = some (parts.foldl glue text) := by
  induction parts generalizing text with
  | nil => rfl
  | cons part parts ih =>
      rw [List.map_cons, List.sum_cons] at fits
      have short := length_glue text part
      have later : appendParts cap (glue text part) parts =
          some (parts.foldl glue (glue text part)) := ih (by omega)
      unfold appendParts
      rw [List.foldl_cons, ← later]
      unfold glue put
      split
      · rfl
      · split
        · rw [List.length_singleton, if_pos (by omega), Option.bind_eq_bind, Option.bind_some]
          dsimp only
          rw [List.length_append, List.length_singleton, if_pos (by omega), List.append_assoc]
          rfl
        · rw [Option.bind_eq_bind, Option.bind_some]
          dsimp only
          rw [if_pos (by omega)]
          rfl

theorem length_foldl_glue (text : Bytes) (parts : List Bytes) :
    (parts.foldl glue text).length ≤
      text.length + (parts.map fun part => part.length + 1).sum := by
  induction parts generalizing text with
  | nil => exact Nat.le_refl _
  | cons part parts ih =>
      have later := ih (glue text part)
      have short := length_glue text part
      rw [List.foldl_cons, List.map_cons, List.sum_cons]
      omega

theorem mem_foldl_glue {c : UInt8} {text : Bytes} {parts : List Bytes}
    (member : c ∈ parts.foldl glue text) :
    c = sepPosix ∨ ∃ part ∈ text :: parts, c ∈ part := by
  induction parts generalizing text with
  | nil => exact .inr ⟨text, List.mem_cons_self, member⟩
  | cons part parts ih =>
      rcases ih member with isSep | ⟨other, isOther, inside⟩
      · exact .inl isSep
      rcases List.mem_cons.mp isOther with rfl | later
      · unfold glue at inside
        split at inside
        · exact .inr ⟨text, List.mem_cons_self, inside⟩
        · split at inside
          · simp only [List.mem_append, List.mem_cons] at inside
            rcases inside with inText | isSep | inPart
            · exact .inr ⟨text, List.mem_cons_self, inText⟩
            · exact .inl isSep
            · exact .inr ⟨part, by simp, inPart⟩
          · rcases List.mem_append.mp inside with inText | inPart
            · exact .inr ⟨text, List.mem_cons_self, inText⟩
            · exact .inr ⟨part, by simp, inPart⟩
      · exact .inr ⟨other, List.mem_cons_of_mem _ (List.mem_cons_of_mem _ later), inside⟩

/-- The text keeps its first byte. -/
theorem head?_foldl_glue {text : Bytes} (parts : List Bytes) (nonempty : text ≠ []) :
    (parts.foldl glue text).head? = text.head? := by
  induction parts generalizing text with
  | nil => rfl
  | cons part parts ih =>
      have same : (glue text part).head? = text.head? := by
        unfold glue
        split
        · rfl
        · split
          · exact List.head?_append_of_ne_nil _ nonempty
          · exact List.head?_append_of_ne_nil _ nonempty
      rw [List.foldl_cons, ih, same]
      intro none
      rw [none] at same
      exact nonempty (List.head?_eq_none_iff.mp same.symm)

theorem walkPath_glue (stack : List Bytes) (text part : Bytes) :
    walkPath stack (glue text part) = walkPath (walkPath stack text) part := by
  unfold glue
  split
  · rename_i none
    rw [none]
    exact (walk_nil visit_nil _).symm
  · split
    · exact walk_append stack text part
    · rename_i noSep
      by_cases first : text = []
      · subst first
        rw [List.nil_append]
        exact congrArg (walkPath · part) (walk_nil visit_nil stack).symm
      · have ends : text.getLast? = some sepPosix := by
          by_contra notSep
          exact noSep ⟨first, notSep⟩
        exact walk_of_getLast? visit_nil stack ends part

theorem walkPath_foldl_glue (stack : List Bytes) (text : Bytes) (parts : List Bytes) :
    walkPath stack (parts.foldl glue text) = (text :: parts).foldl walkPath stack := by
  induction parts generalizing text with
  | nil => rfl
  | cons part parts ih =>
      rw [List.foldl_cons, ih, List.foldl_cons, List.foldl_cons, List.foldl_cons,
        walkPath_glue]

theorem walkPath_joinWith_filter (stack : List Bytes) (texts : List Bytes) :
    walkPath stack (joinWith sepPosix (texts.filter (· ≠ []))) = texts.foldl walkPath stack := by
  have whole : walkPath stack (joinWith sepPosix (texts.filter (· ≠ []))) =
      (texts.filter (· ≠ [])).foldl walkPath stack := walk_joinWith visit_nil stack _
  rw [whole, List.foldl_filter]
  congr 1
  funext stack text
  by_cases none : text = []
  · subst none
    exact (walk_nil visit_nil stack).symm
  · simp [none]

/-- Both texts end in the same byte. -/
theorem getLast?_foldl_glue (text : Bytes) (parts : List Bytes) :
    (parts.foldl glue text).getLast? =
      (joinWith sepPosix ((text :: parts).filter (· ≠ []))).getLast? := by
  induction parts using List.reverseRecOn with
  | nil =>
      by_cases none : text = []
      · simp [none]
      · simp [none]
  | append_singleton parts part ih =>
      rw [List.foldl_concat, ← List.cons_append, List.filter_append]
      by_cases none : part = []
      · subst none
        rw [glue, if_pos rfl, ih]
        simp
      · have kept : [part].filter (· ≠ []) = [part] := by simp [none]
        rw [kept, joinWith_getLast? none]
        unfold glue
        rw [if_neg none]
        split
        · rw [List.getLast?_append, List.getLast?_cons_of_ne_nil none,
            Option.or_of_isSome (by simpa using none)]
        · rw [List.getLast?_append, Option.or_of_isSome (by simpa using none)]

/-- A separator in front names nothing. -/
theorem normalized_cons_sep (path : Bytes) :
    normalized (sepPosix :: path) = normalized path := by
  have same : walkPath [] (sepPosix :: path) = walkPath [] path := walk_cons_sep visit_nil [] path
  unfold normalized
  rw [same]
  by_cases first : path = []
  · subst first
    rfl
  · rw [List.getLast?_cons_of_ne_nil first]

theorem normalized_congr {path other : Bytes} (sameWalk : walkPath [] path = walkPath [] other)
    (sameLast : path.getLast? = other.getLast?) : normalized path = normalized other := by
  unfold normalized
  rw [sameWalk, sameLast]

/-! ### Joining -/

section

variable {cwd : Bytes} {parts : List Bytes}

/-- The scratch holds the text of the parts behind a separator. -/
theorem scratch_text (absolute : isAbsolute cwd = true) (noBackslash : 0x5c ∉ cwd)
    (noneInParts : ∀ part ∈ parts, 0x5c ∉ part) :
    ∃ text, (startOf cwd parts).2.foldl glue (startOf cwd parts).1 = sepPosix :: text ∧
      0x5c ∉ text ∧ resolve cwd parts = sepPosix :: normalized text ∧
      text.length + 3 ≤ joinTotal cwd.length parts := by
  have isAbs : isAbsolute (startOf cwd parts).1 = true := isAbsolute_startOver parts absolute
  have first : (startOf cwd parts).1.head? = some sepPosix := of_decide_eq_true isAbs
  have nonempty : (startOf cwd parts).1 ≠ [] := by
    intro none
    rw [none] at first
    cases first
  have whole := head?_foldl_glue (startOf cwd parts).2 nonempty
  rw [first] at whole
  obtain ⟨text, isText⟩ := List.head?_eq_some_iff.mp whole
  refine ⟨text, isText, fun member => ?_, ?_, ?_⟩
  · have inside := List.mem_cons_of_mem sepPosix member
    rw [← isText] at inside
    rcases mem_foldl_glue inside with isSep | ⟨part, isPart, inPart⟩
    · exact absurd isSep (by decide)
    · rcases mem_startOver isPart with isCwd | isGiven
      · obtain rfl := List.mem_singleton.mp isCwd
        exact noBackslash inPart
      · exact noneInParts part isGiven inPart
  · have sameWalk : walkPath [] (joinedText cwd parts) = walkPath [] (sepPosix :: text) := by
      rw [← isText, walkPath_foldl_glue]
      exact walkPath_joinWith_filter [] _
    have sameLast : (joinedText cwd parts).getLast? = (sepPosix :: text).getLast? := by
      rw [← isText, getLast?_foldl_glue]
      rfl
    unfold resolve
    rw [normalized_congr sameWalk sameLast, normalized_cons_sep]
  · have short := length_foldl_glue (startOf cwd parts).1 (startOf cwd parts).2
    have total := joinTotal_startOf cwd parts
    rw [isText, List.length_cons] at short
    unfold joinTotal at total ⊢
    omega

theorem joinTotal_le_scratchSize (base : Nat) (parts : List Bytes) :
    joinTotal base parts ≤ scratchSize base parts := by
  unfold scratchSize
  split
  · assumption
  · exact Nat.le_refl _

theorem joinAbsStringBuf_resolve (absolute : isAbsolute cwd = true) (noBackslash : 0x5c ∉ cwd)
    (noneInParts : ∀ part ∈ parts, 0x5c ∉ part) (few : parts.length < 2 ^ 16)
    (someParts : parts ≠ []) {cap : Nat} (fits : joinTotal cwd.length parts ≤ cap) :
    joinAbsStringBuf cap cwd parts = some (resolve cwd parts) := by
  obtain ⟨text, isText, noneInText, isResolve, short⟩ :=
    scratch_text absolute noBackslash noneInParts
  unfold joinAbsStringBuf
  rw [if_neg someParts]
  split
  · -- the root alone
    rename_i root
    subst root
    have isRoot : resolve cwd [[sepPosix]] = [sepPosix] := by
      have isStart : startOf cwd [[sepPosix]] = ([sepPosix], []) := rfl
      unfold resolve joinedText
      rw [isStart]
      decide
    rw [isRoot]
    exact if_pos (by rw [List.length_nil, List.length_singleton]; omega)
  · have started : lastAbsolute (parts.length + 1) 0 cwd parts = startOf cwd parts :=
      lastAbsolute_eq (parts.length + 1) 0 cwd parts few (by omega)
    have scratch := joinTotal_le_scratchSize (startOf cwd parts).1.length (startOf cwd parts).2
    have room : (startOf cwd parts).1.length +
        ((startOf cwd parts).2.map fun part => part.length + 1).sum ≤
          scratchSize (startOf cwd parts).1.length (startOf cwd parts).2 := by
      unfold joinTotal at scratch
      omega
    rw [started]
    dsimp only
    have base : put (scratchSize (startOf cwd parts).1.length (startOf cwd parts).2) []
        (startOf cwd parts).1 = some (startOf cwd parts).1 := by
      exact if_pos (by rw [List.length_nil]; omega)
    have leading : put cap [] [sepPosix] = some [sepPosix] :=
      if_pos (by rw [List.length_nil, List.length_singleton]; omega)
    simp only [Option.bind_eq_bind, base, Option.bind_some, appendParts_eq _ room, leading]
    rw [isText, if_neg (List.cons_ne_nil _ _), List.drop_one, List.tail_cons, List.length_singleton,
      normalizeString_walk noneInText (by omega), Option.bind_some, isResolve]
    rfl

theorem length_resolve_le (absolute : isAbsolute cwd = true) (noBackslash : 0x5c ∉ cwd)
    (noneInParts : ∀ part ∈ parts, 0x5c ∉ part) :
    (resolve cwd parts).length ≤ joinTotal cwd.length parts := by
  obtain ⟨text, _, noneInText, isResolve, short⟩ :=
    scratch_text absolute noBackslash noneInParts
  have bound := length_normalized_le noneInText
  rw [isResolve, List.length_cons]
  omega

end

/-- With no parts the directory comes back as it is. -/
def resolveParts (cwd : Bytes) (parts : List Bytes) : Bytes :=
  if parts = [] then cwd else resolve cwd parts

theorem length_resolveParts_le {cwd : Bytes} {parts : List Bytes} (plain : IsPlain cwd)
    (noneInParts : ∀ part ∈ parts, 0x5c ∉ part) :
    (resolveParts cwd parts).length ≤ joinTotal cwd.length parts := by
  unfold resolveParts
  split
  · unfold joinTotal
    omega
  · exact length_resolve_le plain.absolute plain.noBackslash noneInParts

theorem joinAbsStringBuf_resolveParts {cwd : Bytes} {parts : List Bytes} (plain : IsPlain cwd)
    (noneInParts : ∀ part ∈ parts, 0x5c ∉ part) (few : parts.length < 2 ^ 16) {cap : Nat}
    (fits : joinTotal cwd.length parts ≤ cap) :
    joinAbsStringBuf cap cwd parts = some (resolveParts cwd parts) := by
  unfold resolveParts
  split
  · rename_i none
    unfold joinAbsStringBuf
    rw [if_pos none]
  · rename_i someParts
    exact joinAbsStringBuf_resolve plain.absolute plain.noBackslash noneInParts few someParts fits

/-- For an absolute directory and fewer than 65536 parts, joining into a buffer that has room
for the text resolves the parts, and the checked join has that result where it fits. -/
theorem join_resolves (cwd : Bytes) (parts : List Bytes) (plain : IsPlain cwd)
    (noneInParts : ∀ part ∈ parts, 0x5c ∉ part) (few : parts.length < 65536) :
    (∀ cap, joinTotal cwd.length parts ≤ cap →
      joinAbsStringBuf cap cwd parts = some (resolveParts cwd parts)) ∧
    ∀ cap, joinAbsStringBufChecked cap cwd parts =
      some (if (resolveParts cwd parts).length ≤ cap then some (resolveParts cwd parts)
        else none) := by
  have bound := length_resolveParts_le plain noneInParts
  refine ⟨fun cap fits => joinAbsStringBuf_resolveParts plain noneInParts few fits,
    fun cap => ?_⟩
  unfold joinAbsStringBufChecked
  dsimp only
  split
  · rename_i small
    rw [joinAbsStringBuf_resolveParts plain noneInParts few (Nat.le_of_lt small),
      if_pos (Nat.le_trans bound (Nat.le_of_lt small))]
    rfl
  · rw [joinAbsStringBuf_resolveParts plain noneInParts few (Nat.le_refl _), Option.bind_eq_bind,
      Option.bind_some]
    split
    · rename_i long
      rw [if_neg (Nat.not_le.mpr long)]
      rfl
    · rename_i short
      rw [if_pos (Nat.not_lt.mp short)]
      rfl

/-- `/a/b` with `../c/` and `./d/`. -/
theorem join_resolves_sample :
    (∀ cap, joinTotal 4 [[46, 46, 0x2f, 99, 0x2f], [46, 0x2f, 100, 0x2f]] ≤ cap →
      joinAbsStringBuf cap [0x2f, 97, 0x2f, 98]
          [[46, 46, 0x2f, 99, 0x2f], [46, 0x2f, 100, 0x2f]] =
        some [0x2f, 97, 0x2f, 99, 0x2f, 100, 0x2f]) ∧
    ∀ cap, joinAbsStringBufChecked cap [0x2f, 97, 0x2f, 98]
        [[46, 46, 0x2f, 99, 0x2f], [46, 0x2f, 100, 0x2f]] =
      some (if 7 ≤ cap then some [0x2f, 97, 0x2f, 99, 0x2f, 100, 0x2f] else none) := by
  have isResolved : resolveParts [0x2f, 97, 0x2f, 98]
      [[46, 46, 0x2f, 99, 0x2f], [46, 0x2f, 100, 0x2f]] =
        [0x2f, 97, 0x2f, 99, 0x2f, 100, 0x2f] := by decide
  have resolved := join_resolves [0x2f, 97, 0x2f, 98]
    [[46, 46, 0x2f, 99, 0x2f], [46, 0x2f, 100, 0x2f]] ⟨rfl, by decide⟩ (by decide) (by decide)
  rw [isResolved] at resolved
  exact resolved

/-- With no parts `/a/../b` is not resolved. -/
theorem no_parts_unresolved :
    joinAbsStringBuf 64 [0x2f, 97, 0x2f, 46, 46, 0x2f, 98] [] ≠
      some (resolve [0x2f, 97, 0x2f, 46, 46, 0x2f, 98] []) := by
  decide

end Bunx.Paths
