/-
Module: Bunx.Valkey.ReplyFraming
Purpose: The scanner and the reader agree on where a reply ends, however it arrives.
Trusted boundary: none
Main exports: Agrees, Tracks, readElement_tracks, readValue_tracks, reply_framing
-/
import Bunx.Valkey.ScanTree

namespace Bunx.Valkey

open ReplyScanner

variable {α β γ ε : Type}

/-- How the outcomes of reading and of skipping the same bytes are related: both pass them,
or the reader refuses them, or both stop and the reader lacks input. -/
inductive Agrees (related : α → β → Prop) :
    Except RedisError α × ValkeyReader → Except RedisError β × ValkeyReader → Prop where
  | passes {a : α} {b : β} {t : ValkeyReader} (values : related a b) (fresh : t.crlfSkip = 0) :
      Agrees related (.ok a, t) (.ok b, t)
  | refuses {e : RedisError} {t : ValkeyReader}
      {skipped : Except RedisError β × ValkeyReader} (other : e ≠ .invalidResponse) :
      Agrees related (.error e, t) skipped
  | starves {e : RedisError} {t u : ValkeyReader} :
      Agrees related (.error .invalidResponse, t) (.error e, u)

/-- Reading keeps step with skipping. -/
def Tracks (related : α → β → Prop) (x : Read α) (y : Read β) : Prop :=
  ∀ r, r.crlfSkip = 0 → Agrees related (x.runOn r) (y.runOn r)

/-- Skipping keeps step, whatever the values. -/
abbrev TracksAny (x : Read α) (y : Read β) : Prop := Tracks (fun _ _ => True) x y

namespace Tracks

theorem bind {related : α → β → Prop} {after : γ → ε → Prop} {x : Read α} {y : Read β}
    {f : α → Read γ} {g : β → Read ε} (first : Tracks related x y)
    (second : ∀ a b, related a b → Tracks after (f a) (g b)) :
    Tracks after (x >>= f) (y >>= g) := by
  intro r fresh
  rw [Read.runOn_bind, Read.runOn_bind]
  have agrees := first r fresh
  generalize x.runOn r = read at agrees ⊢
  generalize y.runOn r = skipped at agrees ⊢
  cases agrees with
  | passes values freshAfter => exact second _ _ values _ freshAfter
  | refuses other => exact .refuses other
  | starves => exact .starves

theorem pure {related : α → β → Prop} {a : α} {b : β} (values : related a b) :
    Tracks related (Pure.pure a) (Pure.pure b) := fun _ fresh => .passes values fresh

/-- The reader may refuse what the scanner passes. -/
theorem refuse {related : α → β → Prop} {e : RedisError} {y : Read β}
    (other : e ≠ .invalidResponse) : Tracks related (MonadExcept.throw e : Read α) y :=
  fun _ _ => .refuses other

/-- What is made of the value read does not matter. -/
theorem map {x : Read α} {y : Read Unit} (tracks : TracksAny x y) {f : α → γ} :
    TracksAny (x >>= fun a => Pure.pure (f a)) y := by
  intro r fresh
  have agrees := tracks r fresh
  rw [Read.runOn_bind]
  generalize x.runOn r = read at agrees ⊢
  generalize y.runOn r = skipped at agrees ⊢
  cases agrees with
  | passes _ freshAfter => exact .passes trivial freshAfter
  | refuses other => exact .refuses other
  | starves => exact .starves

/-- The same step keeps step with itself. -/
theorem same {x : Read α} (steady : Steady x) : Tracks Eq x x := by
  intro r fresh
  have freshAfter := steady.fresh r fresh
  rcases step : x.runOn r with ⟨e | a, t⟩ <;> rw [step] at freshAfter
  · by_cases lacks : e = .invalidResponse
    · rw [lacks]
      exact .starves
    · exact .refuses lacks
  · exact .passes rfl freshAfter

/-- The reader refuses some of the values both have read. -/
theorem guard {related : α → β → Prop} {c : Prop} [Decidable c] {e : RedisError} {x : Read α}
    {y : Read β} (other : e ≠ .invalidResponse) (rest : ¬ c → Tracks related x y) :
    Tracks related (if c then MonadExcept.throw e >>= fun _ : PUnit => x else x) y := by
  split
  · intro r fresh
    exact .refuses other
  · rename_i passes
    exact rest passes

end Tracks

/-! ### The parts of an element -/

theorem parseInt_lt {buf : Bytes} {radix : Nat} {value : Int}
    (reads : parseInt buf radix = some value) : value < 2 ^ 63 := by
  unfold parseInt at reads
  split at reads
  · cases reads
  · dsimp only at reads
    split at reads
    · cases reads
    · obtain ⟨range, same⟩ := Option.ite_none_right_eq_some.mp reads
      rw [← Option.some.inj same]
      exact range.2

/-- An integer read is in the range of its type. -/
theorem readInteger_tracks :
    Tracks (fun a b => a = b ∧ a < 2 ^ 63) readInteger readInteger := by
  apply (Tracks.same readUntilCrlf_steady).bind
  rintro line _ rfl
  cases reads : parseInt line 10 with
  | none => exact Tracks.refuse (by decide)
  | some int => exact Tracks.pure ⟨rfl, parseInt_lt reads⟩

theorem readAggregateLen_tracks (depth : Nat) :
    Tracks (fun a b => a = b ∧ a < 2 ^ 63) (readAggregateLen depth) (readAggregateLen depth) := by
  unfold readAggregateLen
  split
  · intro r fresh
    exact .refuses (by decide)
  · exact readInteger_tracks

theorem readLine_tracks {f : Bytes → Read α}
    (rest : ∀ line, TracksAny (f line) (Pure.pure () : Read Unit)) :
    TracksAny (readUntilCrlf >>= f) (readUntilCrlf >>= fun _ => Pure.pure ()) := by
  apply (Tracks.same readUntilCrlf_steady).bind
  rintro line _ rfl
  exact rest line

theorem readInteger_line : TracksAny readInteger (readUntilCrlf >>= fun _ => Pure.pure ()) := by
  apply readLine_tracks
  intro line
  cases parseInt line 10 with
  | none => exact Tracks.refuse (by decide)
  | some int => exact Tracks.pure trivial

theorem readDouble_line {δ : Type} (floats : Floats δ) :
    TracksAny (readDouble floats) (readUntilCrlf >>= fun _ => Pure.pure ()) := by
  apply readLine_tracks
  intro line
  split
  · exact Tracks.pure trivial
  · split
    · exact Tracks.pure trivial
    · split
      · exact Tracks.pure trivial
      · cases floats.parse line with
        | none => exact Tracks.refuse (by decide)
        | some d => exact Tracks.pure trivial

theorem readBoolean_line : TracksAny readBoolean (readUntilCrlf >>= fun _ => Pure.pure ()) := by
  apply readLine_tracks
  intro line
  split
  · exact Tracks.pure trivial
  · exact Tracks.pure trivial
  · exact Tracks.refuse (by decide)

/-- A carriage return and a line feed stand where the search begins. -/
theorem crlfAt_drop (b : Bytes) (place : Nat) :
    crlfAt (b.drop place) 0 = true ↔
      b[place]? = some 0x0d ∧ b[place + 1]? = some 0x0a := by
  unfold crlfAt
  rw [List.getElem?_drop, List.getElem?_drop, Bool.and_eq_true, beq_iff_eq, beq_iff_eq]
  rfl

/-- The end of a payload that the scanner looks up is the line the reader reads. -/
theorem readPayload_tracks (len : Nat) {short invalid skipInvalid : RedisError}
    (other : invalid ≠ .invalidResponse) :
    TracksAny (readPayload len short invalid) (skipPayload len skipInvalid) := by
  intro r fresh
  rw [skipPayload_runOn]
  unfold readPayload
  rw [Read.runOn_bind_ok (Read.runOn_get r)]
  dsimp only
  by_cases beyond : r.pos + len > r.buffer.length
  · rw [if_pos beyond, if_pos (by omega)]
    by_cases lacks : short = .invalidResponse
    · rw [lacks]
      exact .starves
    · exact .refuses lacks
  · rw [if_neg beyond, Read.runOn_bind_ok (Read.runOn_set r _)]
    have line := readUntilCrlf_runOn { r with pos := r.pos + len }
    cases found : findCrlf ({ r with pos := r.pos + len } : ValkeyReader).unread r.crlfSkip with
    | none =>
        rw [found] at line
        rw [Read.runOn_bind_error line]
        split
        · exact .refuses (by decide)
        · -- Without a line end here the scanner stops too.
          have nowhere := findCrlf_eq_none.mp found 0 (by omega) (Nat.zero_le _)
          have notHere : ¬ (r.buffer[r.pos + len]? = some 0x0d ∧
              r.buffer[r.pos + len + 1]? = some 0x0a) := by
            intro here
            have ends := (crlfAt_drop r.buffer (r.pos + len)).mpr here
            rw [ValkeyReader.unread] at nowhere
            rw [nowhere] at ends
            cases ends
          split
          · exact .starves
          · rw [if_pos (Decidable.not_and_iff_or_not.mp notHere)]
            exact .starves
    | some i =>
        rw [found] at line
        rw [Read.runOn_bind_ok line]
        obtain ⟨_, _, here, before⟩ := findCrlf_eq_some.mp found
        have inside := length_of_crlfAt here
        rw [ValkeyReader.unread] at here before inside
        cases i with
        | zero =>
            rw [List.length_drop] at inside
            obtain ⟨first, second⟩ := (crlfAt_drop r.buffer (r.pos + len)).mp here
            dsimp only at inside first second
            have long : ¬ r.buffer.length - r.pos < len + 2 := by omega
            have ends : ¬ (r.buffer[r.pos + len]? ≠ some 0x0d ∨
                r.buffer[r.pos + len + 1]? ≠ some 0x0a) := by
              rw [first, second]
              simp
            have place : r.pos + (len + 2) = r.pos + len + (0 + 2) := by omega
            rw [if_neg long, if_neg ends, List.take_zero, if_neg (not_not_intro rfl), place,
              fresh]
            exact .passes trivial rfl
        | succ i =>
            have nonempty : (({ r with pos := r.pos + len } : ValkeyReader).unread.take (i + 1)) ≠
                [] := by
              rw [ValkeyReader.unread, ← List.length_pos_iff, List.length_take]
              omega
            rw [if_pos nonempty]
            exact .refuses other

theorem readMany_tracks {element : Read α} {child : Read Unit} (tracks : TracksAny element child)
    (n : Nat) : TracksAny (readMany element n) (skipMany child n) := by
  induction n with
  | zero => exact Tracks.pure trivial
  | succ n ih =>
      apply tracks.bind
      intro value _ _
      have rest : TracksAny (readMany element n >>= fun values => Pure.pure (value :: values))
          (skipMany child n >>= fun _ => (Pure.pure () : Read Unit)) :=
        ih.bind fun _ _ _ => Tracks.pure trivial
      rw [bind_pure_unit] at rest
      exact rest

theorem skipMany_add (child : Read Unit) (n m : Nat) :
    skipMany child (n + m) = skipMany child n >>= fun _ => skipMany child m := by
  induction n with
  | zero => rw [Nat.zero_add, skipMany, pure_bind]
  | succ n ih =>
      rw [Nat.succ_add, skipMany, skipMany, ih, bind_assoc]

/-- An entry is two values. -/
theorem readEntries_tracks {element : Read α} {child : Read Unit}
    (tracks : TracksAny element child) (n : Nat) :
    TracksAny (readMany (readEntry element) n) (skipMany child (n * 2)) := by
  have entry : TracksAny (readEntry element) (skipMany child 2) := by
    apply tracks.bind
    intro key _ _
    apply tracks.bind
    intro value _ _
    exact Tracks.pure trivial
  have pairs : ∀ m, skipMany (skipMany child 2) m = skipMany child (m * 2) := by
    intro m
    induction m with
    | zero => rfl
    | succ m ih =>
        rw [skipMany, ih, ← skipMany_add]
        congr 1
        omega
  rw [← pairs]
  exact readMany_tracks entry n

theorem saturating_exact {len : Int} (range : len < 2 ^ 63) :
    saturatingMul len.toNat 2 = len.toNat * 2 ∧
      saturatingAdd (saturatingMul len.toNat 2) 1 = len.toNat * 2 + 1 := by
  unfold saturatingAdd saturatingMul u64Max
  omega

/-! ### Elements and values -/

/-- The scanner's element and its children keep step with the reader's element. -/
theorem readElement_tracks {δ : Type} (floats : Floats δ) (depth : Nat)
    {value : Read (RESPValue δ)} {child : Read Unit} (tracks : TracksAny value child) :
    TracksAny (readElement floats depth value) (skipElement depth child) := by
  unfold readElement skipElement scanOne
  rw [bind_assoc]
  apply (Tracks.same readByte_steady).bind
  rintro typeByte _ rfl
  cases RESPType.fromByte typeByte with
  | none => exact Tracks.refuse (by decide)
  | some ty =>
      cases ty <;> dsimp only
      case simpleString | error | null | bigNumber =>
        rw [bind_assoc]
        exact readLine_tracks fun line => Tracks.pure trivial
      case integer =>
        rw [bind_assoc]
        exact readInteger_line.map
      case double =>
        rw [bind_assoc]
        exact (readDouble_line floats).map
      case boolean =>
        rw [bind_assoc]
        exact readBoolean_line.map
      case bulkString =>
        rw [bind_assoc]
        apply readInteger_tracks.bind
        rintro len _ ⟨rfl, _⟩
        by_cases null : len < 0
        · rw [if_pos null, if_pos null]
          exact Tracks.pure trivial
        · rw [if_neg null, if_neg null]
          apply Tracks.guard (by decide)
          intro short
          rw [if_neg short, bind_assoc]
          exact (readPayload_tracks _ (by decide)).bind fun _ _ _ => Tracks.pure trivial
      case blobError =>
        rw [bind_assoc]
        apply readInteger_tracks.bind
        rintro len _ ⟨rfl, _⟩
        apply Tracks.guard (by decide)
        intro range
        obtain ⟨nonneg, short⟩ := not_not.mp range
        rw [if_neg (Int.not_lt.mpr nonneg), if_neg (Int.not_lt.mpr short), bind_assoc]
        exact (readPayload_tracks _ (by decide)).bind fun _ _ _ => Tracks.pure trivial
      case verbatimString =>
        rw [bind_assoc]
        apply Tracks.map
        apply readInteger_tracks.bind
        rintro len _ ⟨rfl, _⟩
        apply Tracks.guard (by decide)
        intro range
        obtain ⟨nonneg, short⟩ := not_not.mp range
        rw [if_neg (Int.not_lt.mpr nonneg), if_neg (Int.not_lt.mpr short), bind_assoc]
        apply (readPayload_tracks _ (by decide)).bind
        intro content _ _
        apply Tracks.guard (by decide)
        intro _
        exact Tracks.pure trivial
      case array =>
        rw [bind_assoc]
        apply (readAggregateLen_tracks depth).bind
        rintro len _ ⟨rfl, _⟩
        by_cases null : len < 0
        · rw [if_pos null, if_pos null]
          exact Tracks.pure trivial
        · rw [if_neg null, if_neg null]
          exact (readMany_tracks tracks _).map
      case map =>
        rw [bind_assoc]
        apply (readAggregateLen_tracks depth).bind
        rintro len _ ⟨rfl, range⟩
        apply Tracks.guard (by decide)
        intro nonneg
        rw [if_neg nonneg, (saturating_exact range).1]
        exact (readEntries_tracks tracks _).map
      case set =>
        rw [bind_assoc]
        apply (readAggregateLen_tracks depth).bind
        rintro len _ ⟨rfl, _⟩
        apply Tracks.guard (by decide)
        intro nonneg
        rw [if_neg nonneg]
        exact (readMany_tracks tracks _).map
      case push =>
        rw [bind_assoc]
        apply (readAggregateLen_tracks depth).bind
        rintro len _ ⟨rfl, _⟩
        apply Tracks.guard (by decide)
        intro positive
        rw [if_neg positive]
        -- The name of the message is its first child.
        have children : len.toNat = (len - 1).toNat + 1 := by omega
        rw [children]
        apply tracks.bind
        intro name _ _
        cases pushKind name with
        | none => exact Tracks.refuse (by decide)
        | some kind => exact (readMany_tracks tracks _).map
      -- An attribute: its entries, and the value behind them.
      all_goals
        rw [bind_assoc]
        apply (readAggregateLen_tracks depth).bind
        rintro len _ ⟨rfl, range⟩
        apply Tracks.guard (by decide)
        intro nonneg
        rw [if_neg nonneg, (saturating_exact range).2, pure_bind]
        dsimp only
        rw [skipMany_add]
        apply (readEntries_tracks tracks _).bind
        intro attrs _ _
        exact tracks.bind fun _ _ _ => Tracks.pure trivial

theorem readValueWithin_tracks {δ : Type} (floats : Floats δ) (levels : Nat) :
    TracksAny (readValueWithin floats levels) (skipWithin levels) := by
  induction levels with
  | zero => exact readElement_tracks floats _ (Tracks.refuse (by decide))
  | succ levels ih => exact readElement_tracks floats _ ih

/-- Reading a whole reply keeps step with skipping one. -/
theorem readValue_tracks {δ : Type} (floats : Floats δ) :
    TracksAny (readValue floats) skipValue := readValueWithin_tracks floats maxNestingDepth

/-- Where the scan is complete the reader does not ask for more, and if it succeeds it ends
there too. -/
theorem readValue_of_complete {δ : Type} (floats : Floats δ) {b : Bytes}
    (complete : (scan {} b).1 = .ok .complete) :
    ((readValue floats).runOn (.init b)).1 ≠ .error .invalidResponse ∧
      ∀ value, ((readValue floats).runOn (.init b)).1 = .ok value →
        ((readValue floats).runOn (.init b)).2.pos = (scan {} b).2.pos := by
  have skips := (scan_complete_iff b (scan {} b).2.pos).mp ⟨complete, rfl⟩
  have agrees := readValue_tracks floats (.init b) rfl
  rw [skips] at agrees
  generalize (readValue floats).runOn (.init b) = read at agrees ⊢
  cases agrees with
  | passes _ _ => exact ⟨by simp, fun _ _ => rfl⟩
  | refuses other => exact ⟨by simpa using other, fun value reads => by cases reads⟩

/-- Where the reader succeeds the scan is complete. -/
theorem complete_of_readValue {δ : Type} (floats : Floats δ) {b : Bytes} {value : RESPValue δ}
    (reads : ((readValue floats).runOn (.init b)).1 = .ok value) :
    (scan {} b).1 = .ok .complete := by
  have agrees := readValue_tracks floats (.init b) rfl
  have ends := fun pos => (scan_complete_iff b pos).mpr
  have steady := skipWithin_steady maxNestingDepth
  rcases read : (readValue floats).runOn (.init b) with ⟨e | v, t⟩ <;> rw [read] at reads agrees
  · cases reads
  · rcases skips : skipValue.runOn (.init b) with ⟨e | _, u⟩ <;> rw [skips] at agrees ends
    · cases agrees
    · have place : u = readerAt b u.pos := steady.readerAt skips
      exact (ends u.pos (by rw [← place])).1

/-- Framing of replies. The outcome of scanning a stream does not depend on how it is cut; when
the scan is complete, reading a value from the same buffer never asks for more, and if it
succeeds it consumes what the scanner counted; and when reading a value from what was received
succeeds, the scan was complete. -/
theorem reply_framing {δ : Type} (floats : Floats δ) :
    (∀ cuts cuts' : List Bytes, cuts.flatten = cuts'.flatten →
      (scanCuts cuts).1.1 = (scanCuts cuts').1.1 ∧
        (scanCuts cuts).1.2.pos = (scanCuts cuts').1.2.pos ∧
        (scanCuts cuts).1.2.stack = (scanCuts cuts').1.2.stack) ∧
    (∀ cuts : List Bytes, (scanCuts cuts).1.1 = .ok .complete →
      ((readValue floats).runOn (.init (scanCuts cuts).2)).1 ≠ .error .invalidResponse ∧
        ∀ value, ((readValue floats).runOn (.init (scanCuts cuts).2)).1 = .ok value →
          ((readValue floats).runOn (.init (scanCuts cuts).2)).2.pos =
            (scanCuts cuts).1.2.pos) ∧
    (∀ (cuts : List Bytes) (value : RESPValue δ),
      ((readValue floats).runOn (.init cuts.flatten)).1 = .ok value →
        (scanCuts cuts).1.1 = .ok .complete) := by
  refine ⟨?_, ?_, ?_⟩
  · intro cuts cuts' sameStream
    obtain ⟨_, _, _, asAll⟩ := scanCuts_alike cuts
    obtain ⟨_, _, _, asAll'⟩ := scanCuts_alike cuts'
    rw [← sameStream] at asAll'
    obtain ⟨sameOutcome, sameProgress⟩ := asAll.trans asAll'.symm
    exact ⟨sameOutcome, congrArg Prod.fst sameProgress, congrArg Prod.snd sameProgress⟩
  · intro cuts complete
    obtain ⟨_, _, ⟨sameOutcome, sameProgress⟩, _⟩ := scanCuts_alike cuts
    have samePos : (scanCuts cuts).1.2.pos = (scan {} (scanCuts cuts).2).2.pos :=
      congrArg Prod.fst sameProgress
    rw [samePos]
    exact readValue_of_complete floats (sameOutcome.symm.trans complete)
  · intro cuts value reads
    obtain ⟨_, _, _, ⟨sameOutcome, _⟩⟩ := scanCuts_alike cuts
    exact sameOutcome.trans (complete_of_readValue floats reads)

/-- An array that arrives in three pieces, one of them ending inside a line end. -/
def arrayInPieces : List Bytes :=
  [Patch.ascii "*2\r\n$3\r\nab", Patch.ascii "c\r\n:5\r", Patch.ascii "\n"]

theorem reply_framing_sample :
    (scanCuts arrayInPieces).1.1 = .ok .complete ∧
      ((readValue (⟨(), (), (), fun _ => none⟩ : Floats Unit)).runOn
        (.init (scanCuts arrayInPieces).2)).1 ≠ .error .invalidResponse := by
  have complete : (scanCuts arrayInPieces).1.1 = .ok .complete := by decide +kernel
  exact ⟨complete, ((reply_framing ⟨(), (), (), fun _ => none⟩).2.1 arrayInPieces complete).1⟩

end Bunx.Valkey
