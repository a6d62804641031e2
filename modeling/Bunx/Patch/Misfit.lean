/-
Module: Bunx.Patch.Misfit
Purpose: When applying a part of a patch is refused: exactly when a hunk reaches past the lines
  of the file, unless the count of the lines made ahead goes below zero.
Trusted boundary: none
Main exports:
  Hunk.Fits, ReachesPast, CountStays, applyHunks_misfit, countLines_stays,
  applyFilePatch_misfit, applyFileCreation_misfit, misfit_is_error, misfit_is_error_sample, misfit_panics
-/
import Bunx.Patch.ApplyPart
import Bunx.Patch.ParsedStarts
import Mathlib.Algebra.BigOperators.Group.List.Basic

namespace Bunx.Patch

/-! ### Fitting -/

namespace PatchMutationPart

/-- How far into the file a part reaches. -/
def reach (part : PatchMutationPart) (cursor : Nat) : Nat :=
  cursor + (if part.ty = .insertion then 0 else part.lines.length)

/-- The line behind the part, in the changed file. -/
def behind (part : PatchMutationPart) (cursor : Nat) : Nat :=
  cursor + (if part.ty = .deletion then 0 else part.lines.length)

/-- How many lines the file has behind the change, of `count` before it. The line behind a last
line feed counts as one, and a part without that line feed adds or removes it. -/
def linesLeft (part : PatchMutationPart) (count : Nat) : Nat :=
  match part.ty with
  | .context => count
  | .insertion =>
      count + part.lines.length - (if part.noNewlineAtEndOfFile then 1 else 0)
  | .deletion =>
      count - part.lines.length + (if part.noNewlineAtEndOfFile then 1 else 0)

end PatchMutationPart

/-- No part reaches past the lines that the parts before it left. -/
def partsFit : List PatchMutationPart → Nat → Nat → Prop
  | [], _, _ => True
  | part :: parts, cursor, count =>
      part.reach cursor ≤ count ∧ partsFit parts (part.behind cursor) (part.linesLeft count)

namespace Hunk

/-- The hunk does not reach past a file of this many lines. -/
def Fits (hunk : Hunk) (count : Nat) : Prop :=
  hunk.header.patched.start - 1 ≤ count ∧
    partsFit hunk.parts (hunk.header.patched.start - 1) count

def linesLeft (hunk : Hunk) (count : Nat) : Nat :=
  hunk.parts.foldl (fun count part => part.linesLeft count) count

end Hunk

/-- Some hunk reaches past the lines that the hunks before it left. -/
def ReachesPast (hunks : List Hunk) (count : Nat) : Prop :=
  ∃ before hunk after, hunks = before ++ hunk :: after ∧
    ¬hunk.Fits (before.foldl (fun count hunk => hunk.linesLeft count) count)

theorem reachesPast_cons (hunk : Hunk) (hunks : List Hunk) (count : Nat) :
    ReachesPast (hunk :: hunks) count ↔
      ¬hunk.Fits count ∨ ReachesPast hunks (hunk.linesLeft count) := by
  constructor
  · rintro ⟨before, misfit, after, split, past⟩
    cases before with
    | nil =>
        cases split
        exact Or.inl past
    | cons first before =>
        rw [List.cons_append, List.cons.injEq] at split
        obtain ⟨rfl, rest⟩ := split
        exact Or.inr ⟨before, misfit, after, rest, past⟩
  · rintro (past | ⟨before, misfit, after, split, past⟩)
    · exact ⟨[], hunk, hunks, rfl, past⟩
    · exact ⟨hunk :: before, misfit, after, congrArg (hunk :: ·) split, past⟩

theorem not_reachesPast_nil (count : Nat) : ¬ReachesPast [] count := by
  rintro ⟨before, misfit, after, split, _⟩
  cases before <;> cases split

instance partsFit.decidable : ∀ (parts : List PatchMutationPart) (cursor count : Nat),
    Decidable (partsFit parts cursor count)
  | [], _, _ => isTrue trivial
  | part :: parts, cursor, count =>
      have := partsFit.decidable parts (part.behind cursor) (part.linesLeft count)
      inferInstanceAs (Decidable (_ ∧ _))

instance (hunk : Hunk) (count : Nat) : Decidable (hunk.Fits count) :=
  inferInstanceAs (Decidable (_ ∧ _))

instance ReachesPast.decidable : ∀ (hunks : List Hunk) (count : Nat),
    Decidable (ReachesPast hunks count)
  | [], count => isFalse (not_reachesPast_nil count)
  | hunk :: hunks, count =>
      have := ReachesPast.decidable hunks (hunk.linesLeft count)
      decidable_of_iff _ (reachesPast_cons hunk hunks count).symm

/-! ### Applying hunks -/

/-- A part that fits changes the lines, and one that does not is an error. -/
theorem applyPart_fits {b : Buffer} {part : PatchMutationPart}
    (fits : part.reach b.lineCursor ≤ b.lines.length) :
    ∃ lines, applyPart b part = .ok { lines := lines, lineCursor := part.behind b.lineCursor } ∧
      lines.length = part.linesLeft b.lines.length := by
  unfold PatchMutationPart.reach at fits
  unfold applyPart PatchMutationPart.behind PatchMutationPart.linesLeft
  cases kind : part.ty with
  | context =>
      rw [kind] at fits
      exact ⟨b.lines, if_neg (Nat.not_lt.mpr fits), rfl⟩
  | insertion =>
      rw [kind] at fits
      refine ⟨_, if_neg (Nat.not_lt.mpr fits), ?_⟩
      cases part.noNewlineAtEndOfFile <;>
        simp [List.length_dropLast, List.length_take, List.length_drop] at fits ⊢ <;> omega
  | deletion =>
      rw [kind] at fits
      refine ⟨_, if_neg (Nat.not_lt.mpr fits), ?_⟩
      cases part.noNewlineAtEndOfFile <;>
        simp [List.length_take, List.length_drop] at fits ⊢ <;> omega

theorem applyPart_misfit {b : Buffer} {part : PatchMutationPart}
    (misfit : ¬part.reach b.lineCursor ≤ b.lines.length) :
    applyPart b part = .error .einval := by
  unfold PatchMutationPart.reach at misfit
  unfold applyPart
  cases kind : part.ty with
  | context =>
      rw [kind] at misfit
      exact if_pos (Nat.not_le.mp misfit)
  | insertion =>
      rw [kind] at misfit
      exact if_pos (Nat.not_le.mp misfit)
  | deletion =>
      rw [kind] at misfit
      exact if_pos (Nat.not_le.mp misfit)

theorem applyParts_fits (parts : List PatchMutationPart) : ∀ b : Buffer,
    partsFit parts b.lineCursor b.lines.length →
      ∃ changed, parts.foldlM applyPart b = .ok changed ∧
        changed.lines.length =
          parts.foldl (fun count part => part.linesLeft count) b.lines.length := by
  induction parts with
  | nil => exact fun b _ => ⟨b, rfl, rfl⟩
  | cons part parts ih =>
      rintro b ⟨fits, others⟩
      obtain ⟨lines, applied, left⟩ := applyPart_fits fits
      rw [← left] at others
      obtain ⟨changed, rest, length⟩ := ih ⟨lines, _⟩ others
      refine ⟨changed, ?_, ?_⟩
      · rw [List.foldlM_cons, applied]
        exact rest
      · rw [length, List.foldl_cons, ← left]

theorem applyParts_misfit (parts : List PatchMutationPart) : ∀ b : Buffer,
    ¬partsFit parts b.lineCursor b.lines.length →
      parts.foldlM applyPart b = .error .einval := by
  induction parts with
  | nil => exact fun b misfit => absurd trivial misfit
  | cons part parts ih =>
      intro b misfit
      rw [List.foldlM_cons]
      by_cases fits : part.reach b.lineCursor ≤ b.lines.length
      · obtain ⟨lines, applied, left⟩ := applyPart_fits fits
        rw [applied]
        apply ih
        rw [left]
        exact fun others => misfit ⟨fits, others⟩
      · rw [applyPart_misfit fits]
        rfl

theorem applyHunk_fits {lines : List Bytes} {hunk : Hunk} (fits : hunk.Fits lines.length) :
    ∃ changed, applyHunk lines hunk = .ok changed ∧
      changed.length = hunk.linesLeft lines.length := by
  obtain ⟨within, parts⟩ := fits
  obtain ⟨changed, applied, length⟩ := applyParts_fits hunk.parts
    { lines := lines, lineCursor := hunk.header.patched.start - 1 } parts
  refine ⟨changed.lines, ?_, length⟩
  unfold applyHunk
  dsimp only
  rw [if_neg (Nat.not_lt.mpr within), applied]
  rfl

theorem applyHunk_misfit {lines : List Bytes} {hunk : Hunk} (misfit : ¬hunk.Fits lines.length) :
    applyHunk lines hunk = .error .einval := by
  unfold applyHunk
  dsimp only
  split
  · rfl
  · rename_i within
    rw [applyParts_misfit hunk.parts _ fun fits => misfit ⟨Nat.not_lt.mp within, fits⟩]
    rfl

/-- Hunks are applied when none reaches past the lines, and else refused. -/
theorem applyHunks_misfit (hunks : List Hunk) : ∀ lines : List Bytes,
    (ReachesPast hunks lines.length → hunks.foldlM applyHunk lines = .error .einval) ∧
      (¬ReachesPast hunks lines.length →
        ∃ changed, hunks.foldlM applyHunk lines = .ok changed) := by
  induction hunks with
  | nil => exact fun lines => ⟨fun past => absurd past (not_reachesPast_nil _), fun _ => ⟨lines, rfl⟩⟩
  | cons hunk hunks ih =>
      intro lines
      rw [reachesPast_cons, List.foldlM_cons]
      by_cases fits : hunk.Fits lines.length
      · obtain ⟨changed, applied, length⟩ := applyHunk_fits fits
        obtain ⟨past, within⟩ := ih changed
        rw [applied]
        rw [length] at past within
        constructor
        · rintro (misfit | later)
          · exact absurd fits misfit
          · exact past later
        · exact fun none => within fun later => none (Or.inr later)
      · rw [applyHunk_misfit fits]
        exact ⟨fun _ => rfl, fun none => absurd (Or.inl fits) none⟩

/-! ### The count made ahead -/

/-- What a part changes in the count of the lines made ahead, besides its lines. -/
def PatchMutationPart.countChange (part : PatchMutationPart) : Int :=
  match part.ty with
  | .context => 0
  | .insertion => if part.noNewlineAtEndOfFile then -1 else 0
  | .deletion => if part.noNewlineAtEndOfFile then 1 else 0

namespace Hunk

/-- What the header of a hunk changes in that count. -/
def headerChange (hunk : Hunk) : Int := hunk.header.patched.len - hunk.header.original.len

def countChange (hunk : Hunk) : Int :=
  hunk.headerChange + (hunk.parts.map PatchMutationPart.countChange).sum

end Hunk

/-- The sums over the parts of a hunk stay above zero. -/
def PartsStay (parts : List PatchMutationPart) (count : Int) : Prop :=
  ∀ done rest, parts = done ++ rest →
    0 ≤ count + (done.map PatchMutationPart.countChange).sum

/-- The count of lines changed by the hunks, one part after another, never goes below zero. -/
def CountStays (hunks : List Hunk) (count : Int) : Prop :=
  ∀ before hunk after, hunks = before ++ hunk :: after →
    PartsStay hunk.parts (count + (before.map Hunk.countChange).sum + hunk.headerChange)

theorem partsStay_nil (count : Int) : PartsStay [] count ↔ 0 ≤ count := by
  constructor
  · intro stays
    have now := stays [] [] rfl
    rwa [List.map_nil, List.sum_nil, Int.add_zero] at now
  · intro above done rest split
    rw [(List.append_eq_nil_iff.mp split.symm).1, List.map_nil, List.sum_nil, Int.add_zero]
    exact above

theorem partsStay_cons (part : PatchMutationPart) (parts : List PatchMutationPart) (count : Int) :
    PartsStay (part :: parts) count ↔
      0 ≤ count ∧ PartsStay parts (count + part.countChange) := by
  constructor
  · intro stays
    constructor
    · have now := stays [] (part :: parts) rfl
      rwa [List.map_nil, List.sum_nil, Int.add_zero] at now
    · intro done rest split
      have later := stays (part :: done) rest (congrArg (part :: ·) split)
      rwa [List.map_cons, List.sum_cons, ← Int.add_assoc] at later
  · rintro ⟨now, later⟩ done rest split
    cases done with
    | nil =>
        rw [List.map_nil, List.sum_nil, Int.add_zero]
        exact now
    | cons first done =>
        rw [List.cons_append, List.cons.injEq] at split
        obtain ⟨rfl, split⟩ := split
        rw [List.map_cons, List.sum_cons, ← Int.add_assoc]
        exact later done rest split

theorem countStays_cons (hunk : Hunk) (hunks : List Hunk) (count : Int) :
    CountStays (hunk :: hunks) count ↔
      PartsStay hunk.parts (count + hunk.headerChange) ∧
        CountStays hunks (count + hunk.countChange) := by
  constructor
  · intro stays
    constructor
    · have now := stays [] hunk hunks rfl
      rwa [List.map_nil, List.sum_nil, Int.add_zero] at now
    · intro before next after split
      have later := stays (hunk :: before) next after (congrArg (hunk :: ·) split)
      rwa [List.map_cons, List.sum_cons, ← Int.add_assoc] at later
  · rintro ⟨now, later⟩ before next after split
    cases before with
    | nil =>
        cases split
        rw [List.map_nil, List.sum_nil, Int.add_zero]
        exact now
    | cons first before =>
        rw [List.cons_append, List.cons.injEq] at split
        obtain ⟨rfl, split⟩ := split
        rw [List.map_cons, List.sum_cons, ← Int.add_assoc]
        exact later before next after split

theorem countStays_nil (count : Int) : CountStays [] count := by
  intro before hunk after split
  cases before <;> cases split

instance PartsStay.decidable : ∀ (parts : List PatchMutationPart) (count : Int),
    Decidable (PartsStay parts count)
  | [], count => decidable_of_iff _ (partsStay_nil count).symm
  | part :: parts, count =>
      have := PartsStay.decidable parts (count + part.countChange)
      decidable_of_iff _ (partsStay_cons part parts count).symm

instance CountStays.decidable : ∀ (hunks : List Hunk) (count : Int),
    Decidable (CountStays hunks count)
  | [], count => isTrue (countStays_nil count)
  | hunk :: hunks, count =>
      have := CountStays.decidable hunks (count + hunk.countChange)
      decidable_of_iff _ (countStays_cons hunk hunks count).symm

/-- One part of the count. -/
theorem countPart_eq (count : Nat) (part : PatchMutationPart) :
    countPart count part =
      if 0 ≤ (count : Int) + part.countChange then .ok (count + part.countChange).toNat
      else .error .panics := by
  unfold countPart PatchMutationPart.countChange
  cases part.ty with
  | context => simp
  | insertion =>
      cases part.noNewlineAtEndOfFile with
      | false => simp
      | true =>
          cases count with
          | zero => rfl
          | succ n => simp
  | deletion =>
      cases part.noNewlineAtEndOfFile with
      | false => simp
      | true =>
          dsimp only
          rw [if_pos rfl, if_pos rfl, if_pos (by omega)]
          rfl

theorem countParts_stays (parts : List PatchMutationPart) : ∀ count : Nat,
    (PartsStay parts count →
      ∃ counted : Nat, parts.foldlM countPart count = .ok counted ∧
        (counted : Int) = count + (parts.map PatchMutationPart.countChange).sum) ∧
      (¬PartsStay parts count → parts.foldlM countPart count = .error .panics) := by
  induction parts with
  | nil =>
      intro count
      refine ⟨fun _ => ⟨count, rfl, by rw [List.map_nil, List.sum_nil, Int.add_zero]⟩, ?_⟩
      exact fun leaves => absurd ((partsStay_nil _).mpr (Int.natCast_nonneg count)) leaves
  | cons part parts ih =>
      intro count
      rw [partsStay_cons, List.foldlM_cons, countPart_eq, List.map_cons, List.sum_cons]
      by_cases above : 0 ≤ (count : Int) + part.countChange
      · rw [if_pos above]
        obtain ⟨stays, leaves⟩ := ih (count + part.countChange).toNat
        rw [Int.toNat_of_nonneg above] at stays leaves
        constructor
        · rintro ⟨_, later⟩
          obtain ⟨counted, folded, sum⟩ := stays later
          exact ⟨counted, folded, by rw [sum, Int.add_assoc]⟩
        · exact fun below => leaves fun later => below ⟨Int.natCast_nonneg count, later⟩
      · rw [if_neg above]
        refine ⟨?_, fun _ => rfl⟩
        rintro ⟨_, later⟩
        have now := later [] parts rfl
        rw [List.map_nil, List.sum_nil, Int.add_zero] at now
        exact absurd now above

theorem countHunk_stays (hunk : Hunk) (count : Nat) :
    (PartsStay hunk.parts (count + hunk.headerChange) →
      ∃ counted : Nat, countHunk count hunk = .ok counted ∧
        (counted : Int) = count + hunk.countChange) ∧
      (¬PartsStay hunk.parts (count + hunk.headerChange) →
        countHunk count hunk = .error .panics) := by
  have changed : (count : Int) + hunk.header.patched.len - hunk.header.original.len =
      count + hunk.headerChange := by
    rw [Hunk.headerChange, Int.add_sub_assoc]
  unfold countHunk
  dsimp only
  rw [changed]
  by_cases below : (count : Int) + hunk.headerChange < 0
  · rw [if_pos below]
    refine ⟨?_, fun _ => rfl⟩
    intro stays
    have now := stays [] hunk.parts rfl
    rw [List.map_nil, List.sum_nil, Int.add_zero] at now
    exact absurd below (Int.not_lt.mpr now)
  · rw [if_neg below]
    have folded := countParts_stays hunk.parts ((count : Int) + hunk.headerChange).toNat
    rw [Int.toNat_of_nonneg (Int.not_lt.mp below), Int.add_assoc] at folded
    exact folded

/-- The count is made when it never goes below zero, and else the code panics. -/
theorem countLines_stays (hunks : List Hunk) : ∀ count : Nat,
    (CountStays hunks count → ∃ counted, hunks.foldlM countHunk count = .ok counted) ∧
      (¬CountStays hunks count → hunks.foldlM countHunk count = .error .panics) := by
  induction hunks with
  | nil =>
      exact fun count => ⟨fun _ => ⟨count, rfl⟩, fun leaves => absurd (countStays_nil _) leaves⟩
  | cons hunk hunks ih =>
      intro count
      rw [countStays_cons, List.foldlM_cons]
      obtain ⟨stays, leaves⟩ := countHunk_stays hunk count
      by_cases now : PartsStay hunk.parts (count + hunk.headerChange)
      · obtain ⟨counted, ok, sum⟩ := stays now
        obtain ⟨staysLater, leavesLater⟩ := ih counted
        rw [ok]
        rw [sum] at staysLater leavesLater
        exact ⟨fun both => staysLater both.2, fun below => leavesLater fun later => below ⟨now, later⟩⟩
      · rw [leaves now]
        exact ⟨fun both => absurd both.1 now, fun _ => rfl⟩

/-! ### The text of a new file -/

theorem copyInto_ok {contents bytes : Bytes} {i : Nat} (room : i + bytes.length ≤ contents.length) :
    ∃ copied, copyInto contents i bytes = .ok copied ∧ copied.length = contents.length := by
  refine ⟨_, if_neg (Nat.not_lt.mpr room), ?_⟩
  rw [List.length_append, List.length_append, List.length_take, List.length_drop]
  omega

/-- The new text has room for its lines and their line feeds. -/
theorem fillLines_ok (lastLine : Nat) (noNewline : Bool) (lines : List Bytes) (idx i : Nat)
    (contents : Bytes) (count : idx + lines.length = lastLine + 1)
    (room : i + (lines.map List.length).sum + (lastLine - idx) + (if noNewline then 0 else 1) ≤
      contents.length) :
    ∃ filled, fillLines lastLine noNewline idx lines i contents = .ok filled := by
  induction lines generalizing idx i contents with
  | nil => exact ⟨contents, rfl⟩
  | cons line lines ih =>
      rw [List.map_cons, List.sum_cons] at room
      rw [List.length_cons] at count
      obtain ⟨copied, ok, length⟩ := copyInto_ok (by omega : i + line.length ≤ contents.length)
      rw [fillLines, ok]
      dsimp only
      cases lines with
      | nil =>
          rw [List.length_nil] at count
          split
          · rename_i ended
            have flag : noNewline = false := by
              rcases ended with before | plain
              · omega
              · simpa using plain
            rw [flag, List.map_nil, List.sum_nil] at room
            have space : i + line.length + [newline].length ≤ copied.length := by
              rw [length, List.length_singleton]
              simp only [Bool.false_eq_true, if_false] at room
              omega
            obtain ⟨ended, okEnd, _⟩ := copyInto_ok space
            rw [okEnd]
            exact ⟨ended, rfl⟩
          · exact ⟨copied, rfl⟩
      | cons next others =>
          have before : idx < lastLine := by
            rw [List.length_cons] at count
            omega
          have space : i + line.length + [newline].length ≤ copied.length := by
            rw [length, List.length_singleton]
            omega
          obtain ⟨ended, okEnd, lengthEnd⟩ := copyInto_ok space
          rw [if_pos (Or.inl before), okEnd]
          exact ih (idx + 1) (i + line.length + 1) ended (by omega) (by omega)

theorem fileContents_ok (part : PatchMutationPart) : ∃ contents, fileContents part = .ok contents := by
  unfold fileContents
  cases lines : part.lines with
  | nil => exact ⟨_, rfl⟩
  | cons line others =>
      apply fillLines_ok
      · rw [List.length_cons, Nat.zero_add, Nat.add_sub_cancel]
      · rw [List.length_replicate, creationCount, lines]
        omega

/-! ### Applying a part -/

/-- Applying a part never panics, is an error exactly when a hunk reaches past the lines of the
file, and then leaves the file as it was. -/
structure AnswersMisfit (reachesPast : Prop) (file : Option Bytes) (outcome : Outcome) : Prop where
  neverPanics : outcome.result ≠ .error .panics
  errorIffMisfit : (∃ e, outcome.result = .error e) ↔ reachesPast
  unchanged : (∃ e, outcome.result = .error e) → outcome.file = file

/-- The code does not look at the hunks of a part whose path is not safe or whose file is too
large. -/
def Refused (path file : Bytes) : Prop := isSafePatchPath path = false ∨ maxFile < file.length

instance (path file : Bytes) : Decidable (Refused path file) :=
  inferInstanceAs (Decidable (_ ∨ _))

def lineCount (file : Bytes) : Nat := (file.splitOn newline).length

theorem answersMisfit_error {reachesPast : Prop} {file : Option Bytes} :
    AnswersMisfit reachesPast file { result := .error .einval, file := file } ↔ reachesPast := by
  constructor
  · exact fun answers => answers.errorIffMisfit.mp ⟨.einval, rfl⟩
  · intro past
    exact ⟨fun same => (by cases same), ⟨fun _ => past, fun _ => ⟨.einval, rfl⟩⟩, fun _ => rfl⟩

section

variable {file : Bytes} {hunks : List Hunk}

theorem applyPatch_panics (small : file.length ≤ maxFile)
    (leaves : ¬CountStays hunks (lineCount file)) : applyPatch file hunks = .error .panics := by
  have counted := (countLines_stays hunks (lineCount file)).2 leaves
  rw [applyPatch, if_neg (Nat.not_lt.mpr small), countLines]
  unfold lineCount at counted
  rw [counted]
  rfl

theorem applyPatch_misfit (small : file.length ≤ maxFile)
    (stays : CountStays hunks (lineCount file)) (past : ReachesPast hunks (lineCount file)) :
    applyPatch file hunks = .error .einval := by
  obtain ⟨count, counted⟩ := (countLines_stays hunks (lineCount file)).1 stays
  unfold lineCount at counted
  rw [applyPatch, if_neg (Nat.not_lt.mpr small), countLines, counted]
  change (hunks.foldlM applyHunk (file.splitOn newline) >>= _) = _
  rw [(applyHunks_misfit hunks (file.splitOn newline)).1 past]
  rfl

theorem applyPatch_fits (small : file.length ≤ maxFile)
    (stays : CountStays hunks (lineCount file)) (within : ¬ReachesPast hunks (lineCount file)) :
    ∃ contents, applyPatch file hunks = .ok contents := by
  obtain ⟨count, counted⟩ := (countLines_stays hunks (lineCount file)).1 stays
  obtain ⟨lines, applied⟩ := (applyHunks_misfit hunks (file.splitOn newline)).2 within
  unfold lineCount at counted
  rw [applyPatch, if_neg (Nat.not_lt.mpr small), countLines, counted]
  refine ⟨Lib.joinWith newline lines, ?_⟩
  change (hunks.foldlM applyHunk (file.splitOn newline) >>= _) = _
  rw [applied]
  rfl

end

/-- A `FilePatch` part answers a misfit as it should exactly when the count made ahead never goes
below zero; where the hunks are not looked at, exactly when one of them is a misfit anyway. -/
theorem applyFilePatch_misfit (path : Bytes) (hunks : List Hunk) (file : Bytes) :
    AnswersMisfit (ReachesPast hunks (lineCount file)) (some file)
        (applyFilePatch path hunks file) ↔
      (Refused path file → ReachesPast hunks (lineCount file)) ∧
        (¬Refused path file → CountStays hunks (lineCount file)) := by
  by_cases refused : Refused path file
  · have ends : applyFilePatch path hunks file =
        { result := .error .einval, file := some file } := by
      unfold applyFilePatch
      rcases refused with unsafePath | large
      · rw [unsafePath]
        rfl
      · split
        · rfl
        · rw [applyPatch, if_pos large]
    rw [ends, answersMisfit_error]
    exact ⟨fun past => ⟨fun _ => past, fun allowed => absurd refused allowed⟩,
      fun both => both.1 refused⟩
  · have looked := refused
    rw [Refused, not_or] at looked
    have safe : ¬(!isSafePatchPath path) = true := by
      intro isUnsafe
      exact looked.1 (by simpa using isUnsafe)
    have small := Nat.not_lt.mp looked.2
    unfold applyFilePatch
    rw [if_neg safe]
    by_cases stays : CountStays hunks (lineCount file)
    · refine ⟨fun _ => ⟨fun isRefused => absurd isRefused refused, fun _ => stays⟩, fun _ => ?_⟩
      by_cases past : ReachesPast hunks (lineCount file)
      · rw [applyPatch_misfit small stays past]
        exact answersMisfit_error.mpr past
      · obtain ⟨contents, applied⟩ := applyPatch_fits small stays past
        rw [applied]
        refine ⟨fun same => (by cases same), ⟨?_, fun isPast => absurd isPast past⟩, ?_⟩
        · rintro ⟨e, same⟩
          cases same
        · rintro ⟨e, same⟩
          cases same
    · rw [applyPatch_panics small stays]
      exact ⟨fun answers => absurd rfl answers.neverPanics,
        fun both => absurd (both.2 refused) stays⟩

/-- A `FileCreation` part, which reaches into no lines, is applied exactly when its path is safe
and its hunk has a part. -/
theorem applyFileCreation_misfit (path : Bytes) (hunk : Option Hunk) (file : Option Bytes) :
    AnswersMisfit False file (applyFileCreation path hunk file) ↔
      isSafePatchPath path = true ∧ ∀ found, hunk = some found → found.parts ≠ [] := by
  have applied (contents : Bytes) :
      AnswersMisfit False file { result := .ok (), file := some contents } :=
    ⟨fun same => (by cases same), ⟨fun ⟨_, same⟩ => (by cases same), False.elim⟩,
      fun ⟨_, same⟩ => (by cases same)⟩
  unfold applyFileCreation
  cases safe : isSafePatchPath path with
  | false => simp [answersMisfit_error]
  | true =>
      rw [if_neg (by decide)]
      cases hunk with
      | none => exact ⟨fun _ => ⟨rfl, fun _ none => (by cases none)⟩, fun _ => applied []⟩
      | some found =>
          cases parts : found.parts with
          | nil =>
              dsimp only
              rw [parts]
              constructor
              · exact fun answers => absurd rfl answers.neverPanics
              · exact fun both => absurd parts (both.2 found rfl)
          | cons part others =>
              obtain ⟨contents, filled⟩ := fileContents_ok part
              dsimp only
              rw [parts]
              dsimp only
              rw [filled]
              refine ⟨fun _ => ⟨rfl, ?_⟩, fun _ => applied contents⟩
              intro same isFound
              cases isFound
              rw [parts]
              exact List.cons_ne_nil _ _

/-- Parts of an accepted patch file: no hunk starts before line one, and when applying a part
never panics, is an error exactly for a misfit and then leaves the file unchanged. -/
theorem misfit_is_error {text : Bytes} {parts : List PatchFilePart}
    (accepted : parsePatchFile text = .ok parts) :
    (∀ path hunks before after, .filePatch path hunks before after ∈ parts →
      StartsAboveZero hunks ∧
        ∀ file,
          AnswersMisfit (ReachesPast hunks (lineCount file)) (some file)
              (applyFilePatch path hunks file) ↔
            (Refused path file → ReachesPast hunks (lineCount file)) ∧
              (¬Refused path file → CountStays hunks (lineCount file))) ∧
      ∀ path mode hunk hash, .fileCreation path mode hunk hash ∈ parts →
        ∀ file,
          AnswersMisfit False file (applyFileCreation path hunk file) ↔
            isSafePatchPath path = true ∧ ∀ found, hunk = some found → found.parts ≠ [] :=
  ⟨fun path hunks _ _ member => ⟨parsePatchFile_starts accepted member,
      applyFilePatch_misfit path hunks⟩,
    fun path _ hunk _ _ => applyFileCreation_misfit path hunk⟩

/-- A patch that deletes five lines of the file `a`, and one that makes the file `b` by a hunk
without lines. -/
def misfitText : Bytes :=
  ascii ("diff --git a/a b/a\n--- a/a\n+++ b/a\n@@ -1,5 +1,0 @@\n-1\n-2\n-3\n-4\n-5\n" ++
    "diff --git a/b b/b\nnew file mode 100644\n--- /dev/null\n+++ b/b\n@@ -0,0 +0,0 @@\n")

def fiveDeletions : Hunk :=
  { header := { original := { start := 1, len := 5 }, patched := { start := 1, len := 0 } }
    parts := [{ ty := .deletion, lines := [[0x31], [0x32], [0x33], [0x34], [0x35]] }] }

def withoutLines : Hunk :=
  { header := { original := { start := 1, len := 0 }, patched := { start := 1, len := 0 } } }

theorem misfitText_accepted :
    parsePatchFile misfitText =
      .ok [.filePatch [0x61] [fiveDeletions] none none,
        .fileCreation [0x62] .nonExecutable (some withoutLines) none] := by
  decide +kernel

/-- On a file of three lines both parts panic. -/
theorem misfit_panics :
    ∃ parts, parsePatchFile misfitText = .ok parts ∧
      .filePatch [0x61] [fiveDeletions] none none ∈ parts ∧
      .fileCreation [0x62] .nonExecutable (some withoutLines) none ∈ parts ∧
      ¬AnswersMisfit (ReachesPast [fiveDeletions] (lineCount (ascii "1\n2\n")))
        (some (ascii "1\n2\n")) (applyFilePatch [0x61] [fiveDeletions] (ascii "1\n2\n")) ∧
      ¬AnswersMisfit False none (applyFileCreation [0x62] (some withoutLines) none) := by
  refine ⟨_, misfitText_accepted, by simp, by simp, ?_, ?_⟩
  · intro answers
    exact answers.neverPanics (by decide +kernel)
  · intro answers
    exact answers.neverPanics (by decide +kernel)

/-- On a file of five lines the first part is applied. -/
theorem misfit_is_error_sample :
    AnswersMisfit (ReachesPast [fiveDeletions] (lineCount (ascii "1\n2\n3\n4\n5\n")))
      (some (ascii "1\n2\n3\n4\n5\n"))
      (applyFilePatch [0x61] [fiveDeletions] (ascii "1\n2\n3\n4\n5\n")) :=
  (((misfit_is_error misfitText_accepted).1 [0x61] [fiveDeletions] none none (by simp)).2 _).mpr
    ⟨by decide +kernel, by decide +kernel⟩

end Bunx.Patch
