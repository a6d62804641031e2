/-
Module: Bunx.Valkey.ScanResume
Purpose: The scan of a growing buffer goes on where it stopped: how a stream is cut does not
  matter to it.
Trusted boundary: none
Main exports: SoundScan, elementOf, scanTurn_resumable, scan_eq,
  scanCuts, scanCuts_alike
-/
import Bunx.Valkey.ReaderSteps

namespace Bunx.Valkey

open ReplyScanner

/-- What a scan has seen of its buffer is right. -/
def SoundScan (b : Bytes) (s : ReplyScanner) : Prop :=
  s.pos ≤ b.length ∧ SkipOver (b.drop (s.pos + 1)) s.crlfSkip

/-- The progress of a scan, without the hint where to search on. -/
def progress (s : ReplyScanner) : Nat × List Nat := (s.pos, s.stack)

theorem SoundScan.fresh {b : Bytes} {pos : Nat} (inside : pos ≤ b.length) (stack : List Nat) :
    SoundScan b { pos := pos, stack := stack, crlfSkip := 0 } :=
  ⟨inside, fun j less => absurd less (Nat.not_lt_zero j)⟩

theorem SoundScan.append {b : Bytes} {s : ReplyScanner} (sound : SoundScan b s) (more : Bytes) :
    SoundScan (b ++ more) s := by
  obtain ⟨inside, passed⟩ := sound
  constructor
  · rw [List.length_append]
    omega
  · cases Nat.lt_or_ge s.pos b.length with
    | inl next =>
        rw [List.drop_append_of_le_length next]
        exact passed.append more
    | inr atEnd =>
        -- Nothing is unread, so there is no hint.
        intro j less
        have hinted := (passed j less).1
        rw [List.length_drop] at hinted
        omega

/-! ### One element -/

/-- The element a turn passes. -/
def elementOf (b : Bytes) (s : ReplyScanner) : Except RedisError (Option Nat) × ValkeyReader :=
  (scanOne s.stack.length).runOn (s.reader b)

/-- What a turn makes of the outcome of its element and the place where it ended. -/
def turnOf (b : Bytes) (s : ReplyScanner) (result : Except RedisError (Option Nat)) (pos : Nat) :
    Option (Except RedisError ScanResult) × ReplyScanner :=
  match result with
  | .error .invalidResponse =>
      (some (.ok .needMoreData),
        { s with crlfSkip := if pos = s.pos + 1 then (b.length - pos) - 1 else 0 })
  | .error err => (some (.error err), s)
  | .ok (some (children + 1)) =>
      (none, { pos := pos, stack := (children + 1) :: s.stack, crlfSkip := 0 })
  | .ok _ =>
      (if unwind s.stack = [] then some (.ok .complete) else none,
        { pos := pos, stack := unwind s.stack, crlfSkip := 0 })

theorem scanTurn_eq (b : Bytes) (s : ReplyScanner) :
    scanTurn b s = turnOf b s (elementOf b s).1 (elementOf b s).2.pos := by
  unfold scanTurn elementOf
  rcases (scanOne s.stack.length).runOn (s.reader b) with ⟨e | (_ | _ | n), r⟩
  · cases e <;> rfl
  · rfl
  · rfl
  · rfl

theorem turnOf_ok (b : Bytes) (s : ReplyScanner) (children : Option Nat) (pos : Nat) :
    ∃ stack, (turnOf b s (.ok children) pos).2 = { pos := pos, stack := stack, crlfSkip := 0 } := by
  rcases children with _ | _ | n <;> exact ⟨_, rfl⟩

/-- A turn goes on only after an element was passed. -/
theorem turnOf_none {b : Bytes} {s : ReplyScanner} {result : Except RedisError (Option Nat)}
    {pos : Nat} (goesOn : (turnOf b s result pos).1 = none) : ∃ children, result = .ok children := by
  rcases result with e | children
  · cases e <;> cases goesOn
  · exact ⟨children, rfl⟩

theorem turnOf_hungry {b : Bytes} {s : ReplyScanner} {result : Except RedisError (Option Nat)}
    {pos : Nat} (lacks : (turnOf b s result pos).1 = some (.ok .needMoreData)) :
    result = .error .invalidResponse := by
  rcases result with e | (_ | _ | n)
  · cases e <;> first | rfl | cases lacks
  · unfold turnOf at lacks
    dsimp only at lacks
    split at lacks <;> cases lacks
  · unfold turnOf at lacks
    dsimp only at lacks
    split at lacks <;> cases lacks
  · cases lacks

/-- Only the outcome and the progress decide what a turn makes of an element. -/
theorem turnOf_progress (b : Bytes) {s t : ReplyScanner} (same : progress s = progress t)
    (result : Except RedisError (Option Nat)) (pos : Nat) :
    (turnOf b s result pos).1 = (turnOf b t result pos).1 ∧
      progress (turnOf b s result pos).2 = progress (turnOf b t result pos).2 := by
  have sameStack : s.stack = t.stack := congrArg Prod.snd same
  rcases result with e | (_ | _ | n)
  · cases e <;> exact ⟨rfl, same⟩
  all_goals
    simp only [turnOf, sameStack, progress, and_self]

/-- Unless input lacks, the length of the buffer does not matter. -/
theorem turnOf_buffer (b c : Bytes) (s : ReplyScanner) {result : Except RedisError (Option Nat)}
    (pos : Nat) (fed : result ≠ .error .invalidResponse) :
    turnOf b s result pos = turnOf c s result pos := by
  rcases result with e | (_ | _ | n)
  · cases e <;> first | rfl | exact absurd rfl fed
  all_goals rfl

/-- The hint does not change the element. -/
theorem elementOf_progress {b : Bytes} {s t : ReplyScanner} (soundLeft : SoundScan b s)
    (soundRight : SoundScan b t) (same : progress s = progress t) :
    (elementOf b s).1 = (elementOf b t).1 ∧ (elementOf b s).2.pos = (elementOf b t).2.pos := by
  -- Both are compared with the element found without a hint.
  have unhinted : ∀ u : ReplyScanner, SoundScan b u →
      ((scanOne u.stack.length).runOn { u.reader b with crlfSkip := 0 }).1 = (elementOf b u).1 ∧
        ((scanOne u.stack.length).runOn { u.reader b with crlfSkip := 0 }).2.pos =
          (elementOf b u).2.pos := by
    intro u sound
    obtain ⟨element, parts, lines⟩ := scanOne_lineFirst u.stack.length
    unfold elementOf
    rw [parts, Read.runOn_bind, Read.runOn_bind, readByte_runOn, readByte_runOn]
    cases next : (u.reader b).buffer[(u.reader b).pos]? with
    | none =>
        exact ⟨rfl, rfl⟩
    | some byte =>
        obtain ⟨sameResult, samePos, _⟩ :=
          (lines byte).skip { u.reader b with pos := u.pos + 1 } sound.2
        exact ⟨sameResult, samePos⟩
  have sameReader : ({ s.reader b with crlfSkip := 0 } : ValkeyReader) =
      { t.reader b with crlfSkip := 0 } := by
    have samePos : s.pos = t.pos := congrArg Prod.fst same
    simp only [reader, samePos]
  have sameStack : s.stack = t.stack := congrArg Prod.snd same
  have left := unhinted s soundLeft
  have right := unhinted t soundRight
  rw [sameReader, sameStack] at left
  exact ⟨left.1.symm.trans right.1, left.2.symm.trans right.2⟩

theorem scanOne_steady (depth : Nat) : Steady (scanOne depth) := by
  obtain ⟨element, parts, lines⟩ := scanOne_lineFirst depth
  rw [parts]
  exact readByte_steady.bind fun typeByte => (lines typeByte).toSteady

/-- An element that was passed lies in the buffer and is not empty. -/
theorem elementOf_ok {b : Bytes} {s : ReplyScanner} (inside : s.pos ≤ b.length)
    {children : Option Nat} (passes : (elementOf b s).1 = .ok children) :
    s.pos < (elementOf b s).2.pos ∧ (elementOf b s).2.pos ≤ b.length := by
  obtain ⟨element, parts, lines⟩ := scanOne_lineFirst s.stack.length
  constructor
  · unfold elementOf at passes ⊢
    rw [parts] at passes ⊢
    rw [Read.runOn_bind, readByte_runOn] at passes ⊢
    cases next : (s.reader b).buffer[(s.reader b).pos]? with
    | none =>
        rw [next] at passes
        cases passes
    | some byte =>
        rw [next] at passes
        have behindByte := (lines byte).moves _ _ passes
        exact Nat.lt_trans (Nat.lt_succ_self _) behindByte
  · exact (scanOne_steady s.stack.length).inside (s.reader b) children passes inside

/-- When input lacks right behind a type byte there is no line end yet. -/
theorem elementOf_starved {b : Bytes} {s : ReplyScanner}
    (lacks : (elementOf b s).1 = .error .invalidResponse)
    (behindByte : (elementOf b s).2.pos = s.pos + 1) :
    findCrlf (b.drop (s.pos + 1)) s.crlfSkip = none ∧
      (b.drop (s.pos + 1)).length ≤ maxLineLen + 1 := by
  obtain ⟨element, parts, lines⟩ := scanOne_lineFirst s.stack.length
  unfold elementOf at lacks behindByte
  rw [parts] at lacks behindByte
  rw [Read.runOn_bind, readByte_runOn] at lacks behindByte
  cases next : (s.reader b).buffer[(s.reader b).pos]? with
  | none =>
      rw [next] at behindByte
      exact absurd behindByte (Nat.ne_of_lt (Nat.lt_succ_self s.pos))
  | some byte =>
      rw [next] at lacks behindByte
      exact (lines byte).starved { s.reader b with pos := s.pos + 1 } lacks behindByte

theorem elementOf_append {b : Bytes} {s : ReplyScanner} (inside : s.pos ≤ b.length) (more : Bytes)
    (fed : (elementOf b s).1 ≠ .error .invalidResponse) :
    (elementOf (b ++ more) s).1 = (elementOf b s).1 ∧
      (elementOf (b ++ more) s).2.pos = (elementOf b s).2.pos := by
  have longer := (scanOne_steady s.stack.length).extend (s.reader b) more inside fed
  have sameReader : (s.reader b).extend more = s.reader (b ++ more) := rfl
  rw [sameReader] at longer
  unfold elementOf
  rw [longer]
  exact ⟨rfl, rfl⟩

/-! ### The turns are resumable -/

/-- The hint a turn leaves is right. -/
theorem SoundScan.hint {b : Bytes} {s : ReplyScanner} (sound : SoundScan b s)
    (lacks : (elementOf b s).1 = .error .invalidResponse) :
    SoundScan b (scanTurn b s).2 := by
  rw [scanTurn_eq, lacks]
  constructor
  · exact sound.1
  · dsimp only [turnOf]
    split
    · rename_i behindByte
      obtain ⟨nowhere, short⟩ := elementOf_starved lacks behindByte
      rw [findCrlf_eq_none] at nowhere
      rw [List.length_drop] at short
      intro j less
      rw [behindByte] at less
      constructor
      · rw [List.length_drop]
        omega
      · cases Nat.lt_or_ge j s.crlfSkip with
        | inl hinted => exact (sound.2 j hinted).2
        | inr searched => exact nowhere j searched (by omega)
    · intro j less
      exact absurd less (Nat.not_lt_zero j)

theorem scanTurn_resumable :
    Lib.Resumable (.ok .needMoreData : Except RedisError ScanResult) scanTurn progress SoundScan
      (fun b s => b.length - s.pos) where
  valid_append b more s sound := sound.append more
  view_turn b s t soundLeft soundRight same := by
    obtain ⟨sameResult, samePos⟩ := elementOf_progress soundLeft soundRight same
    rw [scanTurn_eq, scanTurn_eq, sameResult, samePos]
    exact turnOf_progress b same _ _
  valid_next b s sound goesOn := by
    rw [scanTurn_eq] at goesOn ⊢
    obtain ⟨children, passes⟩ := turnOf_none goesOn
    obtain ⟨stack, after⟩ := turnOf_ok b s children (elementOf b s).2.pos
    rw [passes, after]
    exact SoundScan.fresh (elementOf_ok sound.1 passes).2 stack
  rank_next b s sound goesOn := by
    rw [scanTurn_eq] at goesOn ⊢
    obtain ⟨children, passes⟩ := turnOf_none goesOn
    obtain ⟨stack, after⟩ := turnOf_ok b s children (elementOf b s).2.pos
    obtain ⟨moved, inside⟩ := elementOf_ok sound.1 passes
    rw [passes, after]
    dsimp only
    omega
  hungry_turn b s sound lacks := by
    have starved : (elementOf b s).1 = .error .invalidResponse := by
      rw [scanTurn_eq] at lacks
      exact turnOf_hungry lacks
    constructor
    · exact sound.hint starved
    · rw [scanTurn_eq, starved]
      rfl
  turn_append b more s sound fed := by
    have notStarved : (elementOf b s).1 ≠ .error .invalidResponse := by
      intro starved
      apply fed
      rw [scanTurn_eq, starved]
      rfl
    obtain ⟨sameResult, samePos⟩ := elementOf_append sound.1 more notStarved
    rw [scanTurn_eq, scanTurn_eq, sameResult, samePos]
    exact turnOf_buffer _ _ s _ notStarved

/-- The scan has turns enough: it is the loop of the code, whose turns go on until one of
them ends it. -/
theorem scan_eq {b : Bytes} {s : ReplyScanner} (sound : SoundScan b s) :
    Lib.Alike progress (s.scan b)
      (match scanTurn b s with
        | (some answer, t) => (answer, t)
        | (none, t) => t.scan b) := by
  unfold scan
  rcases turn : scanTurn b s with ⟨answer | answer, t⟩
  · rw [Lib.turns_none turn]
    have next := scanTurn_resumable.valid_next b s sound (by rw [turn])
    have less := scanTurn_resumable.rank_next b s sound (by rw [turn])
    rw [turn] at next less
    have room : s.pos ≤ b.length := sound.1
    dsimp only at less next ⊢
    apply scanTurn_resumable.turns_alike b next next rfl
    · omega
    · omega
  · rw [Lib.turns_some turn]
    exact Lib.Alike.refl _

/-! ### A stream in pieces -/

/-- A new scanner is handed a stream in pieces until it does not ask for more; the outcome, the
scanner and the buffer at that time. -/
def scanCuts (cuts : List Bytes) : (Except RedisError ScanResult × ReplyScanner) × Bytes :=
  Lib.feed (.ok .needMoreData) scan {} [] cuts

/-- The outcome of the pieces is that of the pieces handed over, and that of all at once. -/
theorem scanCuts_alike (cuts : List Bytes) :
    ∃ kept, cuts.flatten = (scanCuts cuts).2 ++ kept ∧
      Lib.Alike progress (scanCuts cuts).1 (scan {} (scanCuts cuts).2) ∧
      Lib.Alike progress (scanCuts cuts).1 (scan {} cuts.flatten) := by
  have enough : ∀ (b : Bytes) (s : ReplyScanner), SoundScan b s →
      b.length - s.pos < b.length + 1 := by
    intro b s _
    omega
  have start : Lib.Alike progress (scan {} []) (.ok .needMoreData, {}) := ⟨rfl, rfl⟩
  obtain ⟨handed, kept, split, buffer, asHanded, asAll⟩ :=
    scanTurn_resumable.feed_alike enough cuts (SoundScan.fresh (Nat.zero_le 0) []) start
  rw [List.nil_append] at buffer asHanded asAll
  have handedOver : (scanCuts cuts).2 = handed := buffer
  rw [handedOver]
  exact ⟨kept, split, asHanded, asAll⟩

end Bunx.Valkey
