/-
Module: Bunx.Hashing.Streaming
Purpose: The streaming forms of both hashes give what the one-shot forms give on the whole text,
  however it is cut, and asking for the hash on the way changes nothing.
Trusted boundary: texts of less than 2^64 bytes
Main exports: Fed, Fed.update, Fed.final, Call, answers, streaming_hash
-/
import Bunx.Hashing.Wyhash11

namespace Bunx.Hashing

open Bunx.Lib Bunx.Lib.Absorber Bunx.IsolatedInstall

/-! ### Blocks of 48 bytes -/

abbrev States : Type := UInt64 × UInt64 × UInt64

def statesOf (h : Wyhash) : States := (h.state0, h.state1, h.state2)

def roundStates (s : States) (block : Bytes) : States :=
  (Wyhash.mix (Wyhash.read8 block ^^^ Wyhash.secret1) (Wyhash.read8 (block.drop 8) ^^^ s.1),
    Wyhash.mix (Wyhash.read8 (block.drop 16) ^^^ Wyhash.secret2)
      (Wyhash.read8 (block.drop 24) ^^^ s.2.1),
    Wyhash.mix (Wyhash.read8 (block.drop 32) ^^^ Wyhash.secret3)
      (Wyhash.read8 (block.drop 40) ^^^ s.2.2))

/-- The last full block is not absorbed before there is more. -/
def absorber48 : Absorber States UInt8 where
  size := 48
  keep := 48
  step := roundStates
  positive := by decide
  fits := by decide

/-- What the rounds over a text from `i` on lead to. -/
structure Rounded (input : Bytes) (h : Wyhash) (i : Nat) (r : Wyhash × Nat) : Prop where
  absorbed : absorber48.absorb (statesOf h) (input.drop i) = (statesOf r.1, input.drop r.2)
  buf : r.1.buf = h.buf
  totalLen : r.1.totalLen = h.totalLen
  moved : r.2 = i ∨ i + 48 ≤ r.2
  inside : i < input.length → r.2 < input.length

section Rounds

variable {input : Bytes} {h : Wyhash} {i fuel : Nat}

theorem rounded_stop (h : Wyhash) (stop : input.length ≤ i + 48) : Rounded input h i (h, i) where
  absorbed := by
    apply absorb_short
    rw [List.length_drop]
    show _ ≤ 48
    omega
  buf := rfl
  totalLen := rfl
  moved := .inl rfl
  inside := id

theorem rounds_rounded (enough : input.length ≤ i + fuel) :
    Rounded input h i (Wyhash.rounds input fuel h i) := by
  induction fuel generalizing h i with
  | zero => exact rounded_stop h (by omega)
  | succ fuel ih =>
      rw [Wyhash.rounds]
      split
      · next more =>
        have rest : Rounded input (h.round ((input.drop i).take 48)) (i + 48)
            (Wyhash.rounds input fuel (h.round ((input.drop i).take 48)) (i + 48)) :=
          ih (by omega)
        have long : absorber48.keep < (input.drop i).length := by
          rw [List.length_drop]
          show 48 < _
          omega
        constructor
        · rw [absorb_long long, ← rest.absorbed, List.drop_drop]
          rfl
        · exact rest.buf
        · exact rest.totalLen
        · have moved := rest.moved
          omega
        · intro _
          exact rest.inside more
      · next stop => exact rounded_stop h (Nat.le_of_not_lt stop)

theorem read8_block (i : Nat) {o : Nat} (fits : o + 8 ≤ 48) :
    Wyhash.read8 (((input.drop i).take 48).drop o) = Wyhash.read8 (input.drop (i + o)) := by
  unfold Wyhash.read8
  rw [List.drop_take, List.take_take, List.drop_drop, Nat.min_eq_left (by omega)]

/-- The rounds that are written out are the same rounds. -/
theorem hashRounds_eq (large : 48 ≤ input.length) :
    Wyhash.hashRounds input (input.length - 48) fuel h i = Wyhash.rounds input fuel h i := by
  induction fuel generalizing h i with
  | zero => rfl
  | succ fuel ih =>
      rw [Wyhash.hashRounds, Wyhash.rounds]
      by_cases more : i + 48 < input.length
      · have first : Wyhash.read8 (((input.drop i).take 48).drop 0) =
            Wyhash.read8 (input.drop (i + 0)) := read8_block i (by decide)
        rw [List.drop_zero] at first
        rw [if_pos more, if_pos (by omega)]
        dsimp only
        rw [ih, Wyhash.round, first, read8_block i (by decide),
          read8_block i (by decide), read8_block i (by decide), read8_block i (by decide),
          read8_block i (by decide)]
      · rw [if_neg more, if_neg (by omega)]

end Rounds

/-! ### The streaming form -/

/-- The state behind a text: its blocks have been absorbed and what is left of it waits. Where
less than 16 bytes wait, the end of the buffer has the bytes in front of them. -/
structure Fed (seed : UInt64) (data : Bytes) (h : Wyhash) : Prop where
  total : h.totalLen = data.length
  size : h.buf.length = 48
  short : h.bufLen ≤ 48
  absorbed : absorber48.absorb (statesOf (Wyhash.init seed)) data =
    (statesOf h, h.buf.take h.bufLen)
  last : h.bufLen < 16 → 16 < data.length →
    h.buf.drop (32 + h.bufLen) ++ h.buf.take h.bufLen = data.drop (data.length - 16)

section Copy

variable {buf bytes : Bytes} {pos n : Nat}

theorem copyAt_drop (fits : pos + bytes.length ≤ n) (inside : pos ≤ buf.length) :
    (Wyhash.copyAt buf pos bytes).drop n = buf.drop n := by
  have front : (buf.take pos ++ bytes).length = pos + bytes.length := by
    rw [List.length_append, List.length_take, Nat.min_eq_left inside]
  rw [Wyhash.copyAt, List.drop_append, front, List.drop_eq_nil_of_le (by omega), List.nil_append,
    List.drop_drop]
  congr 1
  omega

theorem copyAt_full (fits : pos + bytes.length = buf.length) :
    Wyhash.copyAt buf pos bytes = buf.take pos ++ bytes := by
  rw [Wyhash.copyAt, List.drop_eq_nil_of_le (by omega), List.append_nil]

/-- The last bytes of two texts are those of the second one, where it is long enough. -/
theorem last_append {front behind : Bytes} (enough : n ≤ behind.length) :
    (front ++ behind).drop ((front ++ behind).length - n) = behind.drop (behind.length - n) := by
  rw [List.length_append, List.drop_append, List.drop_eq_nil_of_le (by omega), List.nil_append]
  congr 1
  omega

end Copy

section Streaming

variable {seed : UInt64} {data : Bytes} {h : Wyhash}

theorem fed_nil (seed : UInt64) : Fed seed [] (.init seed) where
  total := rfl
  size := List.length_replicate
  short := Nat.zero_le _
  absorbed := absorb_short (Nat.zero_le _)
  last _ many := absurd many (Nat.not_lt_zero _)

theorem Fed.pending_length (fed : Fed seed data h) : (h.buf.take h.bufLen).length = h.bufLen := by
  have size := fed.size
  have short := fed.short
  rw [List.length_take]
  omega

/-- What waits is the end of the text, and all of it where it is short. -/
theorem Fed.pending (fed : Fed seed data h) :
    ∃ blocks, data = blocks ++ h.buf.take h.bufLen ∧ (48 < data.length → 48 ≤ blocks.length) ∧
      (data.length ≤ 48 → blocks = []) := by
  have rest := absorber48.absorb_rest (statesOf (Wyhash.init seed)) data
  rw [fed.absorbed] at rest
  obtain ⟨blocks, isData, _, long⟩ := rest
  refine ⟨blocks, isData, long, ?_⟩
  intro few
  have absorbed := fed.absorbed
  rw [absorb_short few] at absorbed
  have whole : data = h.buf.take h.bufLen := congrArg Prod.snd absorbed
  exact List.append_left_eq_self.mp (isData.symm.trans whole)

/-- What fits the buffer only waits. -/
theorem Fed.wait (fed : Fed seed data h) {input : Bytes} (fits : input.length ≤ 48 - h.bufLen) :
    Fed seed (data ++ input) (h.update input) := by
  have size := fed.size
  have short := fed.short
  have pendingLength := fed.pending_length
  have inside : h.bufLen ≤ h.buf.length := by omega
  have waiting := copyAt_take input inside
  unfold Wyhash.update
  dsimp only
  rw [if_pos fits]
  constructor
  · show h.totalLen + input.length = _
    rw [fed.total, List.length_append]
  · exact (copyAt_length (by omega)).trans size
  · show h.bufLen + input.length ≤ 48
    omega
  · rw [absorber48.absorb_append, fed.absorbed]
    show _ = (_, (Wyhash.copyAt h.buf h.bufLen input).take (h.bufLen + input.length))
    rw [waiting]
    apply absorb_short
    rw [List.length_append, pendingLength]
    show _ ≤ 48
    omega
  · intro few many
    show (Wyhash.copyAt h.buf h.bufLen input).drop (32 + (h.bufLen + input.length)) ++
      (Wyhash.copyAt h.buf h.bufLen input).take (h.bufLen + input.length) = _
    have few' : h.bufLen + input.length < 16 := few
    obtain ⟨blocks, isData, _, whole⟩ := fed.pending
    have lengths := congrArg List.length isData
    rw [List.length_append, pendingLength] at lengths
    rw [List.length_append] at many
    -- with fewer bytes in all, all of them would wait
    have manyBefore : 16 < data.length := by
      by_contra fewBefore
      have noBlocks := whole (by omega)
      rw [noBlocks, List.length_nil] at lengths
      omega
    have before := fed.last (by omega) manyBefore
    have more : data.length + input.length - 16 = data.length - 16 + input.length := by omega
    have tail : (h.buf.drop (32 + h.bufLen)).length = 16 - h.bufLen := by
      rw [List.length_drop]
      omega
    calc (Wyhash.copyAt h.buf h.bufLen input).drop (32 + (h.bufLen + input.length)) ++
          (Wyhash.copyAt h.buf h.bufLen input).take (h.bufLen + input.length)
        = h.buf.drop (32 + (h.bufLen + input.length)) ++ (h.buf.take h.bufLen ++ input) := by
          rw [waiting, copyAt_drop (by omega) inside]
      _ = (h.buf.drop (32 + h.bufLen) ++ (h.buf.take h.bufLen ++ input)).drop input.length := by
          rw [List.drop_append_of_le_length (by omega), List.drop_drop, Nat.add_assoc]
      _ = (data.drop (data.length - 16) ++ input).drop input.length := by
          rw [← List.append_assoc, before]
      _ = (data ++ input).drop ((data ++ input).length - 16) := by
          rw [List.length_append, more, ← List.drop_drop,
            List.drop_append_of_le_length (Nat.sub_le _ _)]

/-- What stands between the buffer and the rounds of a long input. -/
structure Filled (seed : UInt64) (data input : Bytes) (h : Wyhash) (i : Nat) : Prop where
  total : h.totalLen = data.length + input.length
  size : h.buf.length = 48
  inside : i < input.length
  absorbed : absorber48.absorb (statesOf (Wyhash.init seed)) (data ++ input) =
    absorber48.absorb (statesOf h) (input.drop i)
  last : 16 ≤ (input.drop i).length ∨ ∃ front, data ++ input = front ++ (h.buf ++ input.drop i)

/-- The bytes that complete the buffer are absorbed with it. -/
theorem Fed.fill (fed : Fed seed data h) {input : Bytes} (long : 48 - h.bufLen < input.length)
    (waiting : 0 < h.bufLen) :
    Filled seed data input
      { h.round (Wyhash.copyAt h.buf h.bufLen (input.take (48 - h.bufLen))) with
        totalLen := h.totalLen + input.length
        buf := Wyhash.copyAt h.buf h.bufLen (input.take (48 - h.bufLen))
        bufLen := 0 } (48 - h.bufLen) := by
  have size := fed.size
  have short := fed.short
  have taken : (input.take (48 - h.bufLen)).length = 48 - h.bufLen := by
    rw [List.length_take]
    omega
  have isBlock : Wyhash.copyAt h.buf h.bufLen (input.take (48 - h.bufLen)) =
      h.buf.take h.bufLen ++ input.take (48 - h.bufLen) := copyAt_full (by omega)
  have blockLength := copyAt_length (show h.bufLen + (input.take (48 - h.bufLen)).length ≤
    h.buf.length by omega)
  have joined : h.buf.take h.bufLen ++ input =
      Wyhash.copyAt h.buf h.bufLen (input.take (48 - h.bufLen)) ++ input.drop (48 - h.bufLen) := by
    rw [isBlock, List.append_assoc, List.take_append_drop]
  generalize Wyhash.copyAt h.buf h.bufLen (input.take (48 - h.bufLen)) = block at *
  have blockSize : block.length = 48 := blockLength.trans size
  constructor
  · show h.totalLen + input.length = _
    rw [fed.total]
  · exact blockSize
  · exact long
  · have more : absorber48.keep < (block ++ input.drop (48 - h.bufLen)).length := by
      rw [List.length_append, List.length_drop, blockSize]
      show 48 < _
      omega
    have cut : absorber48.size = block.length := blockSize.symm
    rw [absorber48.absorb_append, fed.absorbed, joined, absorb_long more, cut, List.take_left,
      List.drop_left]
    rfl
  · obtain ⟨blocks, isData, _⟩ := fed.pending
    right
    refine ⟨blocks, ?_⟩
    show data ++ input = blocks ++ (block ++ input.drop (48 - h.bufLen))
    rw [← joined, ← List.append_assoc, ← isData]

/-- What is left behind the rounds waits, with the bytes in front of it. -/
theorem Filled.rounds {input : Bytes} {i : Nat} {h' : Wyhash × Nat}
    (filled : Filled seed data input h i) (rounded : Rounded input h i h') :
    Fed seed (data ++ input)
      { h'.1 with
        buf := Wyhash.copyAt
          (if (input.drop h'.2).length < 16 ∧ h'.2 ≥ 48 then
            Wyhash.copyAt h'.1.buf (48 - (16 - (input.drop h'.2).length))
              ((input.drop (h'.2 - (16 - (input.drop h'.2).length))).take
                (16 - (input.drop h'.2).length))
          else h'.1.buf) 0 (input.drop h'.2)
        bufLen := (input.drop h'.2).length } := by
  obtain ⟨h', j⟩ := h'
  dsimp only
  have size : h'.buf.length = 48 := (congrArg List.length rounded.buf).trans filled.size
  have absorbed := filled.absorbed.trans rounded.absorbed
  have few : (input.drop j).length ≤ 48 := by
    have rest := absorber48.absorb_rest_le (statesOf (Wyhash.init seed)) (data ++ input)
    rw [absorbed] at rest
    exact rest
  have inside := rounded.inside filled.inside
  have restLength : (input.drop j).length = input.length - j := List.length_drop
  generalize isBuf : (if (input.drop j).length < 16 ∧ j ≥ 48 then _ else h'.buf) = buf
  have bufSize : buf.length = 48 := by
    rw [← isBuf]
    split
    · rw [copyAt_length, size]
      rw [List.length_take, List.length_drop]
      omega
    · exact size
  have waits := copyAt_take (input.drop j) (Nat.zero_le buf.length)
  rw [List.take_zero, List.nil_append, Nat.zero_add] at waits
  constructor
  · show h'.totalLen = _
    rw [rounded.totalLen, filled.total, List.length_append]
  · exact (copyAt_length (by omega)).trans bufSize
  · exact few
  · rw [absorbed]
    exact Prod.ext rfl waits.symm
  · intro short _
    have short' : (input.drop j).length < 16 := short
    show (Wyhash.copyAt buf 0 (input.drop j)).drop (32 + (input.drop j).length) ++
      (Wyhash.copyAt buf 0 (input.drop j)).take (input.drop j).length = _
    rw [waits, copyAt_drop (by omega) (Nat.zero_le _), ← isBuf]
    by_cases behindRounds : j ≥ 48
    · -- the bytes in front of the rest are copied from the input
      rw [if_pos ⟨short', behindRounds⟩]
      generalize isRem : 16 - (input.drop j).length = rem
      have sixteen : input.length - 16 = j - rem := by omega
      have isTail : 48 - rem = 32 + (input.drop j).length := by omega
      have chunk : ((input.drop (j - rem)).take rem).length = rem := by
        rw [List.length_take, List.length_drop]
        omega
      have front : (h'.buf.take (32 + (input.drop j).length)).length =
          32 + (input.drop j).length := by
        rw [List.length_take]
        omega
      have rest : input.drop j = (input.drop (j - rem)).drop rem := by
        rw [List.drop_drop]
        congr 1
        omega
      rw [last_append (show 16 ≤ input.length by omega), isTail, copyAt_full (by omega),
        List.drop_left' front, sixteen]
      conv_lhs =>
        rhs
        rw [rest]
      exact List.take_append_drop _ _
    · -- there was no round, and the buffer is the block that has been completed
      have notMoved : j = i := by
        have moved := rounded.moved
        dsimp only at moved
        omega
      rw [if_neg fun both => behindRounds both.2]
      rcases filled.last with many | ⟨front, isText⟩
      · rw [← notMoved] at many
        omega
      · rw [← notMoved, ← rounded.buf] at isText
        dsimp only at isText
        have bothLength : (h'.buf ++ input.drop j).length = 48 + (input.drop j).length := by
          rw [List.length_append, size]
        rw [isText, last_append (by omega), bothLength,
          show 48 + (input.drop j).length - 16 = 32 + (input.drop j).length by omega,
          List.drop_append_of_le_length (by omega)]

/-- Fed piece by piece. -/
theorem Fed.update (fed : Fed seed data h) (input : Bytes) :
    Fed seed (data ++ input) (h.update input) := by
  by_cases fits : input.length ≤ 48 - h.bufLen
  · exact fed.wait fits
  · have long := Nat.lt_of_not_le fits
    unfold Wyhash.update
    dsimp only
    rw [if_neg fits]
    split
    · next waiting =>
      exact (fed.fill long waiting).rounds (rounds_rounded (Nat.le_add_left _ _))
    · next empty =>
      have noBytes : h.bufLen = 0 := by omega
      have filled : Filled seed data input { h with totalLen := h.totalLen + input.length } 0 := by
        constructor
        · show h.totalLen + input.length = _
          rw [fed.total]
        · exact fed.size
        · omega
        · rw [absorber48.absorb_append, fed.absorbed, noBytes]
          rfl
        · left
          rw [List.drop_zero]
          omega
      exact filled.rounds (rounds_rounded (Nat.le_add_left _ _))

/-! ### The hash of a text -/

/-- The hash of a text of more than 16 bytes: the states behind its blocks, what is left of it, and
its last 16 bytes. -/
def largeHash (s : States) (total : Nat) (rest last : Bytes) : UInt64 :=
  let h : Wyhash :=
    { a := Wyhash.read8 last
      b := Wyhash.read8 (last.drop 8)
      state0 := Wyhash.finalRounds rest rest.length (s.1 ^^^ (s.2.1 ^^^ s.2.2)) 0
      state1 := s.2.1
      state2 := s.2.2
      totalLen := total
      buf := []
      bufLen := 0 }
  h.final2

theorem drop_last {text : Bytes} (many : 16 ≤ text.length) :
    text.drop (text.length - 8) = (text.drop (text.length - 16)).drop 8 := by
  rw [List.drop_drop]
  congr 1
  omega

theorem Fed.final_large (fed : Fed seed data h) (many : 16 < data.length) :
    h.final_ = largeHash (statesOf h) data.length (h.buf.take h.bufLen)
      (data.drop (data.length - 16)) := by
  have size := fed.size
  have pendingLength := fed.pending_length
  have total := fed.total
  unfold Wyhash.final_
  dsimp only
  rw [if_neg (by omega)]
  split
  · next few =>
    have isLast := fed.last few many
    have rem : 48 - (16 - h.bufLen) = 32 + h.bufLen := by omega
    have tail : (h.buf.drop (32 + h.bufLen)).length = 16 - h.bufLen := by
      rw [List.length_drop]
      omega
    have scratch : (h.buf.drop (48 - (16 - h.bufLen))).take (16 - h.bufLen) ++
        h.buf.take h.bufLen = data.drop (data.length - 16) := by
      rw [rem, List.take_of_length_le (Nat.le_of_eq tail), isLast]
    have sixteen : (data.drop (data.length - 16)).length = 16 := by
      rw [List.length_drop]
      omega
    have pending : (data.drop (data.length - 16)).drop (16 - h.bufLen) = h.buf.take h.bufLen := by
      rw [← isLast, List.drop_left' tail]
    rw [scratch]
    unfold Wyhash.final1
    dsimp only
    rw [pending, sixteen, ← total]
    rfl
  · next enough =>
    obtain ⟨blocks, isData, _⟩ := fed.pending
    have isLast : data.drop (data.length - 16) =
        (h.buf.take h.bufLen).drop ((h.buf.take h.bufLen).length - 16) := by
      conv_lhs => rw [isData]
      exact last_append (by omega)
    unfold Wyhash.final1
    dsimp only
    rw [List.drop_zero, drop_last (show 16 ≤ (h.buf.take h.bufLen).length by omega), ← isLast,
      ← total]
    rfl

theorem states_cancel (s : UInt64) : s ^^^ (s ^^^ s) = s := by
  rw [UInt64.xor_self, UInt64.xor_zero]

/-- The one-shot hash of a text of more than 16 bytes. -/
theorem hash_large {rest : Bytes} {s : States} (many : 16 < data.length)
    (absorbed : absorber48.absorb (statesOf (Wyhash.init seed)) data = (s, rest)) :
    Wyhash.hash seed data = largeHash s data.length rest (data.drop (data.length - 16)) := by
  unfold Wyhash.hash
  dsimp only
  rw [if_neg (Nat.not_le_of_gt many)]
  split
  · next large =>
    have rounded : Rounded data (Wyhash.init seed) 0
        (Wyhash.rounds data data.length (Wyhash.init seed) 0) :=
      rounds_rounded (Nat.le_add_left _ _)
    rw [hashRounds_eq large]
    generalize Wyhash.rounds data data.length (Wyhash.init seed) 0 = r at rounded
    have same := rounded.absorbed
    rw [List.drop_zero, absorbed] at same
    obtain ⟨rfl, rfl⟩ := Prod.mk.inj same
    unfold Wyhash.final1
    dsimp only
    rw [drop_last (by omega)]
    rfl
  · next few =>
    have short : data.length ≤ absorber48.keep := by
      show _ ≤ 48
      omega
    rw [absorb_short short] at absorbed
    obtain ⟨rfl, rfl⟩ := Prod.mk.inj absorbed
    unfold Wyhash.final1 largeHash
    dsimp only
    have cancel : (statesOf (Wyhash.init seed)).1 ^^^ ((statesOf (Wyhash.init seed)).2.1 ^^^
        (statesOf (Wyhash.init seed)).2.2) = (Wyhash.init seed).state0 := states_cancel _
    rw [List.drop_zero, drop_last (by omega), cancel]
    rfl

/-- The hash of what has been fed is the one-shot hash. -/
theorem Fed.final (fed : Fed seed data h) : h.final_ = Wyhash.hash seed data := by
  have total := fed.total
  have absorbed := fed.absorbed
  by_cases many : 16 < data.length
  · rw [fed.final_large many, hash_large many absorbed]
  · have few : data.length ≤ 16 := Nat.le_of_not_lt many
    have short : data.length ≤ absorber48.keep := Nat.le_trans few (by decide)
    rw [absorb_short short] at absorbed
    obtain ⟨isState, isPending⟩ := Prod.mk.inj absorbed
    have state0 : (Wyhash.init seed).state0 = h.state0 := congrArg Prod.fst isState
    unfold Wyhash.final_ Wyhash.hash
    dsimp only
    rw [total, if_pos few, if_pos few, ← isPending]
    unfold Wyhash.smallKey Wyhash.final2
    dsimp only
    split
    · rw [state0, total]
    · split
      · rw [state0, total]
      · rw [state0, total]

end Streaming

/-! ### Calls in any order -/

inductive Call where
  | update (input : Bytes)
  | final_

/-- The hashes that are given out, call by call. -/
def answers : Wyhash → List Call → List UInt64
  | _, [] => []
  | h, .update input :: calls => answers (h.update input) calls
  | h, .final_ :: calls => h.final_ :: answers h calls

/-- The one-shot hashes of what has been fed before each of them. -/
def oneShots (seed : UInt64) : Bytes → List Call → List UInt64
  | _, [] => []
  | fed, .update input :: calls => oneShots seed (fed ++ input) calls
  | fed, .final_ :: calls => Wyhash.hash seed fed :: oneShots seed fed calls

theorem Fed.answers {seed : UInt64} {data : Bytes} {h : Wyhash} (fed : Fed seed data h)
    (calls : List Call) : Hashing.answers h calls = oneShots seed data calls := by
  induction calls generalizing data h with
  | nil => rfl
  | cons call calls ih =>
      cases call with
      | update input => exact ih (fed.update input)
      | final_ =>
          rw [Hashing.answers, oneShots, fed.final, ih fed]

/-- Both hashes are the same however the text is cut, and the newer one may be asked for at any
time. -/
theorem streaming_hash (seed : UInt64) :
    (∀ calls : List Call, answers (.init seed) calls = oneShots seed [] calls) ∧
    ∀ pieces : List Bytes,
      (pieces.foldl Wyhash11.update (.init seed)).final_.1 =
        Wyhash11.hash seed pieces.flatten :=
  ⟨(fed_nil seed).answers, fun pieces => (fed_updates seed pieces).final⟩

/-- `hello world`, as the tests have it. -/
example : Wyhash.hash 0
    [0x68, 0x65, 0x6C, 0x6C, 0x6F, 0x20, 0x77, 0x6F, 0x72, 0x6C, 0x64] = 0x668d5e431c3b2573 := by
  decide +kernel

end Bunx.Hashing
