/-
Module: Bunx.Bundler.ClosingTags
Purpose: The content that is inlined into a tag is written with a backslash in each closing tag,
  and is counted with one byte more for each of them.
Trusted boundary: none
Main exports: escapeClosingTags, memcpyEscapingClosingTags_eq, length_escapeClosingTags
-/
import Bunx.Bundler.OutputPieces

namespace Bunx.Bundler

open Bunx.Lib Bunx.Paths

/-! ### Writes -/

section Writes

variable {cap : Nat} {out one two : Bytes}

theorem put_nil (fits : out.length ≤ cap) : put cap out [] = some out := by
  simp [put, fits]

theorem put_eq_some {result : Bytes} (written : put cap out one = some result) :
    result = out ++ one ∧ out.length + one.length ≤ cap := by
  unfold put at written
  split at written
  · next fits => exact ⟨(Option.some.inj written).symm, fits⟩
  · cases written

/-- Two writes are one write of both texts. -/
theorem put_append : (put cap out one).bind (fun middle => put cap middle two) =
    put cap out (one ++ two) := by
  unfold put
  by_cases fits : out.length + one.length ≤ cap
  · rw [if_pos fits, Option.bind_some, List.length_append, List.length_append, Nat.add_assoc,
      List.append_assoc]
  · rw [if_neg fits, Option.bind_none, if_neg]
    rw [List.length_append]
    omega

theorem foldlM_put (writes : List Bytes) (fits : out.length ≤ cap) :
    writes.foldlM (put cap) out = put cap out writes.flatten := by
  induction writes generalizing out with
  | nil => exact (put_nil fits).symm
  | cons write writes ih =>
      rw [List.foldlM_cons, List.flatten_cons, ← put_append]
      cases written : put cap out write with
      | none => rfl
      | some middle =>
          obtain ⟨rfl, inside⟩ := put_eq_some written
          exact ih (by rwa [List.length_append])

end Writes

/-! ### Escaped content -/

/-- Does a closing tag begin here? -/
def isClosingTag (tagSuffix text : Bytes) : Bool :=
  tagStart.isPrefixOf text && beginsIgnoringCase (text.drop 2) tagSuffix

/-- A closing tag, in any letter case, gets a backslash behind its `<`. -/
def escapeClosingTags (tagSuffix : Bytes) : Bytes → Bytes
  | [] => []
  | c :: rest =>
      if isClosingTag tagSuffix (c :: rest) then c :: 0x5C :: escapeClosingTags tagSuffix rest
      else c :: escapeClosingTags tagSuffix rest

variable {tagSuffix : Bytes}

theorem escapeClosingTags_cons {c : UInt8} {rest : Bytes}
    (notHere : ¬ tagStart <+: c :: rest) :
    escapeClosingTags tagSuffix (c :: rest) = c :: escapeClosingTags tagSuffix rest := by
  have noTag : isClosingTag tagSuffix (c :: rest) = false := by
    rw [isClosingTag, Bool.and_eq_false_iff]
    exact .inl (Bool.eq_false_iff.mpr (mt List.isPrefixOf_iff_prefix.mp notHere))
  rw [escapeClosingTags, noTag, if_neg Bool.false_ne_true]

/-- What begins no tag is copied. -/
theorem escapeClosingTags_take {text : Bytes} {n : Nat}
    (nowhere : ∀ j < n, ¬ tagStart <+: text.drop j) :
    escapeClosingTags tagSuffix text =
      text.take n ++ escapeClosingTags tagSuffix (text.drop n) := by
  induction n generalizing text with
  | zero => rfl
  | succ n ih =>
      cases text with
      | nil => simp [escapeClosingTags]
      | cons c rest =>
          rw [escapeClosingTags_cons (nowhere 0 (Nat.succ_pos n)), List.take_succ_cons,
            List.drop_succ_cons, List.cons_append,
            ih fun j below => nowhere (j + 1) (Nat.succ_lt_succ below)]

theorem escapeClosingTags_none {text : Bytes} (none : indexOf tagStart text = none) :
    escapeClosingTags tagSuffix text = text := by
  have nowhere := indexOf_eq_none_iff.mp none
  rw [escapeClosingTags_take fun j below => nowhere j (Nat.le_of_lt below), List.take_length,
    List.drop_length, escapeClosingTags, List.append_nil]

/-- The first `</` is copied, with a backslash where it begins a closing tag. -/
theorem escapeClosingTags_some {text : Bytes} {idx : Nat}
    (found : indexOf tagStart text = some idx) :
    escapeClosingTags tagSuffix text =
      text.take idx ++
        (if beginsIgnoringCase (text.drop (idx + 2)) tagSuffix then escapedTagStart else tagStart) ++
        escapeClosingTags tagSuffix (text.drop (idx + 2)) := by
  obtain ⟨isThere, _, first⟩ := indexOf_eq_some_iff.mp found
  obtain ⟨rest, isRest⟩ := isThere
  have behind : text.drop (idx + 2) = rest := by
    rw [← List.drop_drop, ← isRest]
    rfl
  rw [escapeClosingTags_take first, ← isRest, behind, List.append_assoc]
  congr 1
  have slash : ¬ tagStart <+: (0x2F : UInt8) :: rest := by
    rintro ⟨_, same⟩
    cases same
  show escapeClosingTags tagSuffix (0x3C :: 0x2F :: rest) = _
  rw [escapeClosingTags, escapeClosingTags_cons slash]
  have isTag : isClosingTag tagSuffix (0x3C :: 0x2F :: rest) = beginsIgnoringCase rest tagSuffix :=
    rfl
  rw [isTag]
  split
  · rfl
  · rfl

/-- Behind the first `</` there is less of the text. -/
theorem drop_lt {text : Bytes} {idx : Nat} (found : indexOf tagStart text = some idx) :
    (text.drop (idx + 2)).length < text.length := by
  obtain ⟨isThere, _, _⟩ := indexOf_eq_some_iff.mp found
  have long := isThere.length_le
  rw [List.length_drop] at long ⊢
  have two : tagStart.length = 2 := rfl
  omega

theorem memcpyLoop_eq {cap fuel : Nat} {dest remaining : Bytes} (enough : remaining.length ≤ fuel) :
    memcpyLoop cap tagSuffix fuel dest remaining =
      put cap dest (escapeClosingTags tagSuffix remaining) := by
  induction fuel generalizing dest remaining with
  | zero =>
      rw [List.length_eq_zero_iff.mp (Nat.le_zero.mp enough)]
      rfl
  | succ fuel ih =>
      rw [memcpyLoop]
      cases found : indexOf tagStart remaining with
      | none => rw [escapeClosingTags_none found]
      | some idx =>
          have less := drop_lt found
          have behind (dest : Bytes) : memcpyLoop cap tagSuffix fuel dest (remaining.drop (idx + 2)) =
              put cap dest (escapeClosingTags tagSuffix (remaining.drop (idx + 2))) :=
            ih (by omega)
          rw [escapeClosingTags_some found, ← put_append, ← put_append, Option.bind_assoc]
          simp only [behind]
          rfl

/-- The content is written with its closing tags escaped. -/
theorem memcpyEscapingClosingTags_eq (cap : Nat) (dest content closeTag : Bytes) :
    memcpyEscapingClosingTags cap dest content closeTag =
      put cap dest (escapeClosingTags (closeTag.drop 2) content) :=
  memcpyLoop_eq (Nat.le_refl _)

/-! ### Counted tags -/

/-- A tag that has no `<` of its own. -/
def IsPlainSuffix (tagSuffix : Bytes) : Prop := ∀ c ∈ tagSuffix, toAsciiLowercase c ≠ 0x3C

/-- No tag begins within the name of a tag. -/
theorem not_tagStart_of_begins {text : Bytes} (plain : IsPlainSuffix tagSuffix)
    (begins : beginsIgnoringCase text tagSuffix = true) (j : Nat) (inside : j < tagSuffix.length) :
    ¬ tagStart <+: text.drop j := by
  rw [beginsIgnoringCase, Bool.and_eq_true, decide_eq_true_eq, decide_eq_true_eq] at begins
  obtain ⟨long, same⟩ := begins
  rintro ⟨rest, isRest⟩
  have isAngle : text[j]? = some 0x3C := by
    rw [← Nat.add_zero j, ← List.getElem?_drop, ← isRest]
    rfl
  have lower : ((text.take tagSuffix.length).map toAsciiLowercase)[j]? = some 0x3C := by
    rw [List.getElem?_map, List.getElem?_take_of_lt inside, isAngle]
    rfl
  rw [same, List.getElem?_map, Option.map_eq_some_iff] at lower
  obtain ⟨c, isThere, isAngleToo⟩ := lower
  exact plain c (List.mem_of_getElem? isThere) isAngleToo

theorem length_countLoop {fuel : Nat} {remaining : Bytes} (plain : IsPlainSuffix tagSuffix)
    (enough : remaining.length ≤ fuel) :
    (escapeClosingTags tagSuffix remaining).length =
      remaining.length + countLoop tagSuffix fuel remaining := by
  induction fuel generalizing remaining with
  | zero =>
      rw [List.length_eq_zero_iff.mp (Nat.le_zero.mp enough)]
      rfl
  | succ fuel ih =>
      rw [countLoop]
      cases found : indexOf tagStart remaining with
      | none => rw [escapeClosingTags_none found]; rfl
      | some idx =>
          have less := drop_lt found
          have long := (indexOf_eq_some_iff.mp found).1.length_le
          rw [List.length_drop] at less long
          have two : tagStart.length = 2 := rfl
          have three : escapedTagStart.length = 3 := rfl
          rw [escapeClosingTags_some found, List.length_append, List.length_append,
            List.length_take]
          dsimp only
          generalize isRest : remaining.drop (idx + 2) = rest
          have restLength : rest.length = remaining.length - (idx + 2) := by
            rw [← isRest, List.length_drop]
          by_cases begins : beginsIgnoringCase rest tagSuffix = true
          · have bound := begins
            rw [beginsIgnoringCase, Bool.and_eq_true, decide_eq_true_eq] at bound
            generalize isTail : rest.drop tagSuffix.length = tail
            have tailLength : tail.length = rest.length - tagSuffix.length := by
              rw [← isTail, List.length_drop]
            have copied : escapeClosingTags tagSuffix rest =
                rest.take tagSuffix.length ++ escapeClosingTags tagSuffix tail := by
              rw [← isTail]
              exact escapeClosingTags_take (not_tagStart_of_begins plain begins)
            have counted : (escapeClosingTags tagSuffix tail).length =
                tail.length + countLoop tagSuffix fuel tail := ih (by omega)
            rw [if_pos begins, if_pos begins, copied, List.length_append, counted,
              List.length_take]
            omega
          · have counted : (escapeClosingTags tagSuffix rest).length =
                rest.length + countLoop tagSuffix fuel rest := ih (by omega)
            rw [if_neg begins, if_neg begins, counted]
            omega

/-- The bytes that are counted for a content are those of its escaped text. -/
theorem length_escapeClosingTags (content closeTag : Bytes)
    (plain : IsPlainSuffix (closeTag.drop 2)) :
    content.length + countClosingTags content closeTag =
      (escapeClosingTags (closeTag.drop 2) content).length :=
  (length_countLoop plain (Nat.le_refl _)).symm

theorem closingTag_plain {chunk : OutputChunk} {closeTag : Bytes}
    (isTag : chunk.closingTagForContent = some closeTag) : IsPlainSuffix (closeTag.drop 2) := by
  unfold OutputChunk.closingTagForContent at isTag
  split at isTag
  · cases isTag
    unfold IsPlainSuffix
    decide +kernel
  · cases isTag
    unfold IsPlainSuffix
    decide +kernel
  · cases isTag

end Bunx.Bundler
