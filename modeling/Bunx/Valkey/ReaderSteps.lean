/-
Module: Bunx.Valkey.ReaderSteps
Purpose: What the steps of the reader do on a buffer and on every longer one.
Trusted boundary: none
Main exports: Read.runOn_bind, findCrlf_eq_some, findCrlf_eq_none, SkipOver, Steady, LineFirst,
  scanOne_steady, scanElement_lineFirst
-/
import Bunx.Valkey.ValkeyProtocol

namespace Bunx.Valkey

variable {α β : Type}

/-! ### Running a step -/

namespace Read

@[simp] theorem runOn_pure (a : α) (r : ValkeyReader) :
    (pure a : Read α).runOn r = (.ok a, r) := rfl

@[simp] theorem runOn_throw (e : RedisError) (r : ValkeyReader) :
    (throw e : Read α).runOn r = (.error e, r) := rfl

@[simp] theorem runOn_get (r : ValkeyReader) : (get : Read ValkeyReader).runOn r = (.ok r, r) :=
  rfl

@[simp] theorem runOn_set (r t : ValkeyReader) : (set t : Read PUnit).runOn r = (.ok ⟨⟩, t) :=
  rfl

theorem runOn_bind (x : Read α) (f : α → Read β) (r : ValkeyReader) :
    (x >>= f).runOn r =
      match x.runOn r with
      | (.ok a, t) => (f a).runOn t
      | (.error e, t) => (.error e, t) := by
  unfold runOn
  rw [ExceptT.run_bind, StateT.run_bind]
  rcases (ExceptT.run x).run r with ⟨e | a, t⟩ <;> rfl

/-- The second step runs where the first one ended. -/
theorem runOn_bind_ok {x : Read α} {f : α → Read β} {r t : ValkeyReader} {a : α}
    (first : x.runOn r = (.ok a, t)) : (x >>= f).runOn r = (f a).runOn t := by
  rw [runOn_bind, first]

theorem runOn_bind_error {x : Read α} {f : α → Read β} {r t : ValkeyReader} {e : RedisError}
    (first : x.runOn r = (.error e, t)) : (x >>= f).runOn r = (.error e, t) := by
  rw [runOn_bind, first]

end Read

/-! ### Line ends -/

theorem length_of_crlfAt {b : Bytes} {i : Nat} (here : crlfAt b i = true) : i + 1 < b.length := by
  rw [crlfAt, Bool.and_eq_true] at here
  have last : b[i + 1]? = some 0x0a := by simpa using here.2
  exact (List.getElem?_eq_some_iff.mp last).1

theorem crlfAt_append {b : Bytes} (more : Bytes) {i : Nat} (inside : i + 1 < b.length) :
    crlfAt (b ++ more) i = crlfAt b i := by
  unfold crlfAt
  rw [List.getElem?_append_left inside, List.getElem?_append_left (by omega)]

theorem findCrlf_eq_some {b : Bytes} {skip i : Nat} :
    findCrlf b skip = some i ↔
      skip ≤ i ∧ i ≤ maxLineLen ∧ crlfAt b i = true ∧
        ∀ j, skip ≤ j → j < i → crlfAt b j = false := by
  unfold findCrlf
  rw [List.find?_range'_eq_some]
  constructor
  · rintro ⟨here, inRange, before⟩
    have inside := length_of_crlfAt here
    rw [List.mem_range'_1] at inRange
    refine ⟨by omega, by omega, here, ?_⟩
    intro j fromSkip less
    simpa using before j (by omega) less
  · rintro ⟨fromSkip, inLimit, here, before⟩
    have inside := length_of_crlfAt here
    refine ⟨here, ?_, ?_⟩
    · rw [List.mem_range'_1]
      omega
    · intro j fromStart less
      simpa using before j (by omega) less

theorem findCrlf_eq_none {b : Bytes} {skip : Nat} :
    findCrlf b skip = none ↔ ∀ j, skip ≤ j → j ≤ maxLineLen → crlfAt b j = false := by
  unfold findCrlf
  rw [List.find?_range'_eq_none]
  constructor
  · intro nowhere j fromSkip inLimit
    cases here : crlfAt b j with
    | false => rfl
    | true =>
        have inside := length_of_crlfAt here
        have := nowhere j (by omega) (by omega)
        rw [here] at this
        cases this
  · intro nowhere j fromStart inRange
    simpa using nowhere j (by omega) (by omega)

/-- No line end begins before `skip`, and that no longer depends on what is to come. -/
def SkipOver (b : Bytes) (skip : Nat) : Prop :=
  ∀ j, j < skip → j + 1 < b.length ∧ crlfAt b j = false

theorem SkipOver.append {b : Bytes} {skip : Nat} (passed : SkipOver b skip) (more : Bytes) :
    SkipOver (b ++ more) skip := by
  intro j less
  obtain ⟨inside, notHere⟩ := passed j less
  constructor
  · rw [List.length_append]
    omega
  · rw [crlfAt_append more inside, notHere]

/-- A search may begin where no line end begins before. -/
theorem findCrlf_skipOver {b : Bytes} {skip : Nat} (passed : SkipOver b skip) :
    findCrlf b skip = findCrlf b 0 := by
  cases found : findCrlf b 0 with
  | none =>
      rw [findCrlf_eq_none] at found ⊢
      intro j _ inLimit
      exact found j (Nat.zero_le j) inLimit
  | some i =>
      rw [findCrlf_eq_some] at found ⊢
      obtain ⟨_, inLimit, here, before⟩ := found
      refine ⟨?_, inLimit, here, fun j _ less => before j (Nat.zero_le j) less⟩
      by_contra beyond
      rw [(passed i (by omega)).2] at here
      cases here

/-- What is found is found in every longer buffer. -/
theorem findCrlf_append_some {b : Bytes} (more : Bytes) {skip i : Nat}
    (found : findCrlf b skip = some i) : findCrlf (b ++ more) skip = some i := by
  rw [findCrlf_eq_some] at found ⊢
  obtain ⟨fromSkip, inLimit, here, before⟩ := found
  have inside := length_of_crlfAt here
  refine ⟨fromSkip, inLimit, ?_, ?_⟩
  · rw [crlfAt_append more inside, here]
  · intro j fromSkip less
    rw [crlfAt_append more (by omega), before j fromSkip less]

/-- Behind the limit of a line nothing is searched. -/
theorem findCrlf_append_none {b : Bytes} (more : Bytes) {skip : Nat}
    (long : b.length > maxLineLen + 1) (nowhere : findCrlf b skip = none) :
    findCrlf (b ++ more) skip = none := by
  rw [findCrlf_eq_none] at nowhere ⊢
  intro j fromSkip inLimit
  rw [crlfAt_append more (by omega), nowhere j fromSkip inLimit]

/-! ### Steps that stand when more input comes -/

namespace ValkeyReader

/-- The same reader on a longer buffer. -/
def extend (r : ValkeyReader) (more : Bytes) : ValkeyReader :=
  { r with buffer := r.buffer ++ more }

theorem unread_extend {r : ValkeyReader} (inside : r.pos ≤ r.buffer.length) (more : Bytes) :
    (r.extend more).unread = r.unread ++ more :=
  List.drop_append_of_le_length inside

end ValkeyReader

/-- A step that only moves forward, and whose outcome, unless it lacks input, is the same on
every longer buffer. -/
structure Steady (x : Read α) : Prop where
  buffer_eq : ∀ r, (x.runOn r).2.buffer = r.buffer
  forward : ∀ r, r.pos ≤ (x.runOn r).2.pos
  fresh : ∀ r, r.crlfSkip = 0 → (x.runOn r).2.crlfSkip = 0
  inside : ∀ r a, (x.runOn r).1 = .ok a → r.pos ≤ r.buffer.length →
    (x.runOn r).2.pos ≤ r.buffer.length
  extend : ∀ r more, r.pos ≤ r.buffer.length → (x.runOn r).1 ≠ .error .invalidResponse →
    x.runOn (r.extend more) = ((x.runOn r).1, (x.runOn r).2.extend more)

namespace Steady

theorem pure (a : α) : Steady (Pure.pure a) where
  buffer_eq _ := rfl
  forward _ := Nat.le_refl _
  fresh _ fresh := fresh
  inside _ _ _ inside := inside
  extend _ _ _ _ := rfl

theorem throw (e : RedisError) : Steady (MonadExcept.throw e : Read α) where
  buffer_eq _ := rfl
  forward _ := Nat.le_refl _
  fresh _ fresh := fresh
  inside _ _ _ inside := inside
  extend _ _ _ _ := rfl

theorem bind {x : Read α} {f : α → Read β} (first : Steady x) (second : ∀ a, Steady (f a)) :
    Steady (x >>= f) where
  buffer_eq r := by
    have kept := first.buffer_eq r
    rcases step : x.runOn r with ⟨e | a, t⟩ <;> rw [step] at kept
    · rw [Read.runOn_bind_error step]
      exact kept
    · rw [Read.runOn_bind_ok step, (second a).buffer_eq]
      exact kept
  forward r := by
    have moved := first.forward r
    rcases step : x.runOn r with ⟨e | a, t⟩ <;> rw [step] at moved
    · rw [Read.runOn_bind_error step]
      exact moved
    · rw [Read.runOn_bind_ok step]
      exact Nat.le_trans moved ((second a).forward t)
  fresh r fresh := by
    have kept := first.fresh r fresh
    rcases step : x.runOn r with ⟨e | a, t⟩ <;> rw [step] at kept
    · rw [Read.runOn_bind_error step]
      exact kept
    · rw [Read.runOn_bind_ok step]
      exact (second a).fresh t kept
  inside r b ends start := by
    have kept := first.buffer_eq r
    rcases step : x.runOn r with ⟨e | a, t⟩ <;> rw [step] at kept
    · rw [Read.runOn_bind_error step] at ends
      cases ends
    · rw [Read.runOn_bind_ok step] at ends ⊢
      have between := first.inside r a (by rw [step]) start
      rw [step, ← kept] at between
      rw [← kept]
      exact (second a).inside t b ends between
  extend r more start fed := by
    have kept := first.buffer_eq r
    rcases step : x.runOn r with ⟨e | a, t⟩ <;> rw [step] at kept
    · rw [Read.runOn_bind_error step] at fed ⊢
      have starved : (x.runOn r).1 ≠ .error .invalidResponse := by
        rw [step]
        intro same
        cases same
        exact fed rfl
      have longer := first.extend r more start starved
      rw [step] at longer
      exact Read.runOn_bind_error longer
    · rw [Read.runOn_bind_ok step] at fed ⊢
      have longer := first.extend r more start (by rw [step]; simp)
      rw [step] at longer
      have between := first.inside r a (by rw [step]) start
      rw [step, ← kept] at between
      rw [Read.runOn_bind_ok longer]
      exact (second a).extend t more between fed

theorem ite {c : Prop} [Decidable c] {x y : Read α} (first : Steady x) (second : Steady y) :
    Steady (if c then x else y) := by
  split
  · exact first
  · exact second

end Steady

theorem readByte_runOn (r : ValkeyReader) :
    readByte.runOn r =
      match r.buffer[r.pos]? with
      | none => (.error .invalidResponse, r)
      | some byte => (.ok byte, { r with pos := r.pos + 1 }) := by
  unfold readByte
  rw [Read.runOn_bind_ok (Read.runOn_get r)]
  cases r.buffer[r.pos]? <;> rfl

theorem readUntilCrlf_runOn (r : ValkeyReader) :
    readUntilCrlf.runOn r =
      match findCrlf r.unread r.crlfSkip with
      | some i => (.ok (r.unread.take i), { r with crlfSkip := 0, pos := r.pos + (i + 2) })
      | none =>
          (.error (if r.unread.length > maxLineLen + 1 then .lineTooLong else .invalidResponse),
            { r with crlfSkip := 0 }) := by
  unfold readUntilCrlf
  rw [Read.runOn_bind_ok (Read.runOn_get r)]
  cases findCrlf r.unread r.crlfSkip with
  | some i => rfl
  | none =>
      dsimp only
      rw [Read.runOn_bind_ok (Read.runOn_set r _)]
      split <;> rfl

theorem skipPayload_runOn (len : Nat) (invalid : RedisError) (r : ValkeyReader) :
    (skipPayload len invalid).runOn r =
      if r.buffer.length - r.pos < len + 2 then (.error .invalidResponse, r)
      else if r.buffer[r.pos + len]? ≠ some 0x0d ∨ r.buffer[r.pos + len + 1]? ≠ some 0x0a then
        (.error invalid, r)
      else (.ok ⟨⟩, { r with pos := r.pos + (len + 2) }) := by
  unfold skipPayload
  rw [Read.runOn_bind_ok (Read.runOn_get r)]
  dsimp only
  by_cases short : r.buffer.length - r.pos < len + 2
  · rw [if_pos short, if_pos short]
    rfl
  · rw [if_neg short, if_neg short]
    split <;> rfl

theorem readByte_steady : Steady readByte where
  buffer_eq r := by
    rw [readByte_runOn]
    cases r.buffer[r.pos]? <;> rfl
  forward r := by
    rw [readByte_runOn]
    cases r.buffer[r.pos]? with
    | none => exact Nat.le_refl _
    | some byte => exact Nat.le_succ _
  fresh r fresh := by
    rw [readByte_runOn]
    cases r.buffer[r.pos]? <;> exact fresh
  inside r a ends start := by
    rw [readByte_runOn] at ends ⊢
    cases next : r.buffer[r.pos]? with
    | none =>
        rw [next] at ends
        cases ends
    | some byte => exact (List.getElem?_eq_some_iff.mp next).1
  extend r more start fed := by
    rw [readByte_runOn] at fed ⊢
    rw [readByte_runOn]
    cases next : r.buffer[r.pos]? with
    | none =>
        rw [next] at fed
        exact absurd rfl fed
    | some byte =>
        have inside := (List.getElem?_eq_some_iff.mp next).1
        have longer : (r.extend more).buffer[(r.extend more).pos]? = some byte := by
          rw [← next]
          exact List.getElem?_append_left inside
        rw [longer]
        rfl

theorem readUntilCrlf_steady : Steady readUntilCrlf where
  buffer_eq r := by
    rw [readUntilCrlf_runOn]
    cases findCrlf r.unread r.crlfSkip <;> rfl
  forward r := by
    rw [readUntilCrlf_runOn]
    cases findCrlf r.unread r.crlfSkip with
    | none => exact Nat.le_refl _
    | some i => exact Nat.le_add_right _ _
  fresh r _ := by
    rw [readUntilCrlf_runOn]
    cases findCrlf r.unread r.crlfSkip <;> rfl
  inside r a ends start := by
    rw [readUntilCrlf_runOn] at ends ⊢
    cases found : findCrlf r.unread r.crlfSkip with
    | none =>
        rw [found] at ends
        cases ends
    | some i =>
        have inside := length_of_crlfAt (findCrlf_eq_some.mp found).2.2.1
        rw [ValkeyReader.unread, List.length_drop] at inside
        dsimp only
        omega
  extend r more start fed := by
    rw [readUntilCrlf_runOn] at fed ⊢
    rw [readUntilCrlf_runOn, ValkeyReader.unread_extend start]
    cases found : findCrlf r.unread r.crlfSkip with
    | none =>
        rw [found] at fed
        have long : r.unread.length > maxLineLen + 1 := by
          by_contra short
          exact fed (by rw [if_neg short])
        have longer : findCrlf (r.unread ++ more) (r.extend more).crlfSkip = none :=
          findCrlf_append_none more long found
        have stillLong : (r.unread ++ more).length > maxLineLen + 1 := by
          rw [List.length_append]
          omega
        rw [longer]
        dsimp only
        rw [if_pos long, if_pos stillLong]
        rfl
    | some i =>
        have longer : findCrlf (r.unread ++ more) (r.extend more).crlfSkip = some i :=
          findCrlf_append_some more found
        have inside := length_of_crlfAt (findCrlf_eq_some.mp found).2.2.1
        rw [longer]
        dsimp only
        rw [List.take_append_of_le_length (by omega)]
        rfl

theorem skipPayload_steady {len : Nat} {invalid : RedisError} :
    Steady (skipPayload len invalid) where
  buffer_eq r := by
    rw [skipPayload_runOn]
    split
    · rfl
    · split <;> rfl
  forward r := by
    rw [skipPayload_runOn]
    split
    · exact Nat.le_refl _
    · split
      · exact Nat.le_refl _
      · exact Nat.le_add_right _ _
  fresh r fresh := by
    rw [skipPayload_runOn]
    split
    · exact fresh
    · split <;> exact fresh
  inside r a ends start := by
    rw [skipPayload_runOn] at ends ⊢
    split
    · exact start
    · rename_i long
      split
      · exact start
      · dsimp only
        omega
  extend r more start fed := by
    rw [skipPayload_runOn] at fed ⊢
    rw [skipPayload_runOn]
    by_cases short : r.buffer.length - r.pos < len + 2
    · rw [if_pos short] at fed
      exact absurd rfl fed
    · have stillLong : ¬ (r.extend more).buffer.length - (r.extend more).pos < len + 2 := by
        simp only [ValkeyReader.extend, List.length_append]
        omega
      have inside : r.pos + len + 1 < r.buffer.length := by omega
      have sameReturn : (r.extend more).buffer[(r.extend more).pos + len]? =
          r.buffer[r.pos + len]? := List.getElem?_append_left (Nat.lt_of_succ_lt inside)
      have sameFeed : (r.extend more).buffer[(r.extend more).pos + len + 1]? =
          r.buffer[r.pos + len + 1]? := List.getElem?_append_left inside
      rw [if_neg short, if_neg stillLong, sameReturn, sameFeed]
      split <;> rfl

theorem readInteger_steady : Steady readInteger := by
  apply readUntilCrlf_steady.bind
  intro str
  split
  · exact Steady.pure _
  · exact Steady.throw _

/-! ### Steps that begin with a line -/

/-- A steady step that reads a line before it moves: where the search for the line end
begins does not matter to it, and it lacks input without having moved only when there is no
line end. -/
structure LineFirst (x : Read α) : Prop extends Steady x where
  skip : ∀ r, SkipOver r.unread r.crlfSkip →
    (x.runOn { r with crlfSkip := 0 }).1 = (x.runOn r).1 ∧
      (x.runOn { r with crlfSkip := 0 }).2.pos = (x.runOn r).2.pos ∧
      ∀ a, (x.runOn r).1 = .ok a → x.runOn { r with crlfSkip := 0 } = x.runOn r
  starved : ∀ r, (x.runOn r).1 = .error .invalidResponse → (x.runOn r).2.pos = r.pos →
    findCrlf r.unread r.crlfSkip = none ∧ r.unread.length ≤ maxLineLen + 1
  moves : ∀ r a, (x.runOn r).1 = .ok a → r.pos < (x.runOn r).2.pos

theorem LineFirst.throw {e : RedisError} (other : e ≠ .invalidResponse) :
    LineFirst (MonadExcept.throw e : Read α) where
  toSteady := Steady.throw e
  skip _ _ := ⟨rfl, rfl, fun _ ends => by cases ends⟩
  starved _ ends _ := absurd (Except.error.inj ends) other
  moves _ _ ends := by cases ends

theorem LineFirst.bind {x : Read α} {f : α → Read β} (first : LineFirst x)
    (second : ∀ a, Steady (f a)) : LineFirst (x >>= f) where
  toSteady := first.toSteady.bind second
  skip r passed := by
    obtain ⟨sameResult, samePos, same⟩ := first.skip r passed
    rcases step : x.runOn r with ⟨e | a, t⟩ <;> rw [step] at sameResult samePos same
    · rcases step' : x.runOn { r with crlfSkip := 0 } with ⟨e' | a', t'⟩ <;>
        rw [step'] at sameResult samePos <;> cases sameResult
      rw [Read.runOn_bind_error step, Read.runOn_bind_error step']
      exact ⟨rfl, samePos, fun _ ends => by cases ends⟩
    · have step' := same a rfl
      rw [Read.runOn_bind_ok step, Read.runOn_bind_ok step']
      exact ⟨rfl, rfl, fun _ _ => rfl⟩
  starved r ends still := by
    have short := first.starved r
    have moved := first.moves r
    rcases step : x.runOn r with ⟨e | a, t⟩ <;> rw [step] at short moved
    · rw [Read.runOn_bind_error step] at ends still
      cases ends
      exact short rfl still
    · rw [Read.runOn_bind_ok step] at still
      have forward := (second a).forward t
      have before : r.pos < t.pos := moved a rfl
      exact absurd still (Nat.ne_of_gt (Nat.lt_of_lt_of_le before forward))
  moves r b ends := by
    have moved := first.moves r
    rcases step : x.runOn r with ⟨e | a, t⟩ <;> rw [step] at moved
    · rw [Read.runOn_bind_error step] at ends
      cases ends
    · rw [Read.runOn_bind_ok step]
      exact Nat.lt_of_lt_of_le (moved a rfl) ((second a).forward t)

theorem readUntilCrlf_lineFirst : LineFirst readUntilCrlf where
  toSteady := readUntilCrlf_steady
  skip r passed := by
    rw [readUntilCrlf_runOn, readUntilCrlf_runOn, findCrlf_skipOver passed]
    exact ⟨rfl, rfl, fun _ _ => rfl⟩
  starved r ends _ := by
    rw [readUntilCrlf_runOn] at ends
    cases found : findCrlf r.unread r.crlfSkip with
    | some i =>
        rw [found] at ends
        cases ends
    | none =>
        rw [found] at ends
        dsimp only at ends
        split at ends
        · cases ends
        · exact ⟨rfl, by omega⟩
  moves r a ends := by
    rw [readUntilCrlf_runOn] at ends ⊢
    cases found : findCrlf r.unread r.crlfSkip with
    | some i =>
        dsimp only
        omega
    | none =>
        rw [found] at ends
        cases ends

theorem readInteger_lineFirst : LineFirst readInteger := by
  apply readUntilCrlf_lineFirst.bind
  intro str
  split
  · exact Steady.pure _
  · exact Steady.throw _

theorem readAggregateLen_lineFirst (depth : Nat) : LineFirst (readAggregateLen depth) := by
  unfold readAggregateLen
  split
  · apply LineFirst.bind
    · exact LineFirst.throw (by decide)
    · intro _
      exact readInteger_steady
  · exact readInteger_lineFirst

/-- Behind its type byte an element begins with a line. -/
theorem scanOne_lineFirst (depth : Nat) :
    ∃ element : UInt8 → Read (Option Nat),
      scanOne depth = readByte >>= element ∧ ∀ typeByte, LineFirst (element typeByte) := by
  refine ⟨_, rfl, ?_⟩
  intro typeByte
  cases RESPType.fromByte typeByte with
  | none => exact LineFirst.throw (by decide)
  | some ty =>
      cases ty
      case simpleString | error | integer | null | double | boolean | bigNumber =>
        exact readUntilCrlf_lineFirst.bind fun _ => Steady.pure _
      case bulkString | blobError | verbatimString =>
        apply readInteger_lineFirst.bind
        intro len
        have payload : ∀ invalid, Steady (skipPayload len.toNat invalid >>= fun _ =>
            (Pure.pure none : Read (Option Nat))) :=
          fun _ => skipPayload_steady.bind fun _ => Steady.pure _
        apply Steady.ite
        · exact Steady.ite (Steady.pure _) (Steady.throw _)
        · exact Steady.ite ((Steady.throw _).bind fun _ => payload _) (payload _)
      case array =>
        apply (readAggregateLen_lineFirst depth).bind
        intro len
        exact Steady.ite (Steady.pure _) (Steady.pure _)
      -- The other aggregates refuse some lengths.
      all_goals
        apply (readAggregateLen_lineFirst depth).bind
        intro len
        exact Steady.ite ((Steady.throw _).bind fun _ => Steady.pure _) (Steady.pure _)

end Bunx.Valkey
