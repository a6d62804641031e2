/-
Module: Bunx.Hashing.Wyhash11
Purpose: The older wyhash, with rounds of 32 bytes: its streaming form gives what the one-shot
  form gives on the whole text.
Trusted boundary: texts of less than 2^64 bytes
Main exports: WyhashStateless, Wyhash11, Wyhash11.hash, Fed, Fed.update, streaming_hash
-/
import Bunx.IsolatedInstall.Wyhash
import Bunx.Lib.Blocks

namespace Bunx.Hashing

open Bunx.Lib Bunx.Lib.Absorber Bunx.IsolatedInstall

def prime0 : UInt64 := 0xa0761d6478bd642f
def prime1 : UInt64 := 0xe7037ed1a0b428db
def prime2 : UInt64 := 0x8ebc6af09c88c6e3
def prime3 : UInt64 := 0x589965cc75374cc3
def prime4 : UInt64 := 0x1d8e4e27c47d124f

/-- `read_bytes`: so many bytes, the lowest one first. -/
def readBytes (bytes : Nat) (data : Bytes) : UInt64 := UInt64.ofNat (leValue (data.take bytes))

/-- `read_8bytes_swapped`. -/
def read8bytesSwapped (data : Bytes) : UInt64 :=
  (readBytes 4 data <<< 32) ||| readBytes 4 (data.drop 4)

def mum (a b : UInt64) : UInt64 :=
  let r := a.toNat * b.toNat
  UInt64.ofNat (r / 2 ^ 64) ^^^ UInt64.ofNat (r % 2 ^ 64)

def mix0 (a b seed : UInt64) : UInt64 := mum (a ^^^ seed ^^^ prime0) (b ^^^ seed ^^^ prime1)

def mix1 (a b seed : UInt64) : UInt64 := mum (a ^^^ seed ^^^ prime2) (b ^^^ seed ^^^ prime3)

/-- One to eight bytes. The arms of `final_` read their last bytes in these ways. -/
def readLast (data : Bytes) : UInt64 :=
  match data.length with
  | 1 => readBytes 1 data
  | 2 => readBytes 2 data
  | 3 => (readBytes 2 data <<< 8) ||| readBytes 1 (data.drop 2)
  | 4 => readBytes 4 data
  | 5 => (readBytes 4 data <<< 8) ||| readBytes 1 (data.drop 4)
  | 6 => (readBytes 4 data <<< 16) ||| readBytes 2 (data.drop 4)
  | 7 => (readBytes 4 data <<< 24) ||| (readBytes 2 (data.drop 4) <<< 8) |||
      readBytes 1 (data.drop 6)
  | _ => read8bytesSwapped data

/-- `final_long`, for keys of 17 to 31 bytes. -/
def finalLong (seed : UInt64) (key : Bytes) : UInt64 :=
  let head := mix0 (read8bytesSwapped key) (read8bytesSwapped (key.drop 8)) seed
  let tail :=
    if key.length ≤ 24 then mix1 (readLast (key.drop 16)) prime4 seed
    else mix1 (read8bytesSwapped (key.drop 16)) (readLast (key.drop 24)) seed
  head ^^^ tail

structure WyhashStateless where
  seed : UInt64
  msgLen : Nat

namespace WyhashStateless

def init (seed : UInt64) : WyhashStateless := { seed := seed, msgLen := 0 }

def round (h : WyhashStateless) (b : Bytes) : WyhashStateless :=
  { h with
    seed := mix0 (readBytes 8 b) (readBytes 8 (b.drop 8)) h.seed ^^^
      mix1 (readBytes 8 (b.drop 16)) (readBytes 8 (b.drop 24)) h.seed }

def updateLoop (b : Bytes) : Nat → WyhashStateless → Nat → WyhashStateless
  | 0, h, _ => h
  | fuel + 1, h, off =>
      if off < b.length then updateLoop b fuel (h.round ((b.drop off).take 32)) (off + 32)
      else h

def update (h : WyhashStateless) (b : Bytes) : WyhashStateless :=
  let h := updateLoop b b.length h 0
  { h with msgLen := h.msgLen + b.length }

/-- The state is changed as well. -/
def final_ (h : WyhashStateless) (b : Bytes) : UInt64 × WyhashStateless :=
  let seed :=
    if b.length = 0 then h.seed
    else if b.length ≤ 8 then mix0 (readLast b) prime4 h.seed
    else if b.length ≤ 16 then mix0 (read8bytesSwapped b) (readLast (b.drop 8)) h.seed
    else finalLong h.seed b
  let h : WyhashStateless := { seed := seed, msgLen := h.msgLen + b.length }
  (mum (h.seed ^^^ UInt64.ofNat h.msgLen) prime4, h)

def hash (seed : UInt64) (input : Bytes) : UInt64 :=
  let alignedLen := input.length - input.length % 32
  (((init seed).update (input.take alignedLen)).final_ (input.drop alignedLen)).1

end WyhashStateless

/-- `buf` has 32 bytes, `bufLen` of which are waiting to be hashed. -/
structure Wyhash11 where
  state : WyhashStateless
  buf : Bytes
  bufLen : Nat

namespace Wyhash11

def init (seed : UInt64) : Wyhash11 :=
  { state := .init seed, buf := List.replicate 32 0, bufLen := 0 }

/-- The bytes that complete the buffer are hashed with it. -/
def fillBuffer (h : Wyhash11) (b : Bytes) : Wyhash11 × Nat :=
  if h.bufLen ≠ 0 ∧ h.bufLen + b.length ≥ 32 then
    let off := 32 - h.bufLen
    let buf := Wyhash.copyAt h.buf h.bufLen (b.take off)
    ({ state := h.state.update buf, buf := buf, bufLen := 0 }, off)
  else (h, 0)

def update (h : Wyhash11) (b : Bytes) : Wyhash11 :=
  let (h, off) := h.fillBuffer b
  let remainLen := b.length - off
  let alignedLen := remainLen - remainLen % 32
  let state := h.state.update ((b.drop off).take alignedLen)
  let tail := b.drop (off + alignedLen)
  { state := state, buf := Wyhash.copyAt h.buf h.bufLen tail, bufLen := h.bufLen + tail.length }

def final_ (h : Wyhash11) : UInt64 × Wyhash11 :=
  let (hash, state) := h.state.final_ (h.buf.take h.bufLen)
  (hash, { h with state := state })

def hash (seed : UInt64) (input : Bytes) : UInt64 := WyhashStateless.hash seed input

end Wyhash11

/-! ### Blocks of 32 bytes -/

/-- A round, counted in the length of the message. -/
def blockRound (h : WyhashStateless) (block : Bytes) : WyhashStateless :=
  { h.round block with msgLen := h.msgLen + 32 }

def absorber11 : Absorber WyhashStateless UInt8 where
  size := 32
  keep := 31
  step := blockRound
  positive := by decide
  fits := by decide

section Stateless

variable (h : WyhashStateless)

theorem updateLoop_msgLen (b : Bytes) (fuel off : Nat) :
    (h.updateLoop b fuel off).msgLen = h.msgLen := by
  induction fuel generalizing h off with
  | zero => rfl
  | succ fuel ih =>
      rw [WyhashStateless.updateLoop]
      split
      · exact ih _ _
      · rfl

/-- The rounds do not look at the length of the message. -/
theorem updateLoop_absorbs (b : Bytes) {fuel off : Nat} (enough : b.length ≤ off + fuel)
    (whole : 32 ∣ b.length - off) (m : Nat) :
    { h.updateLoop b fuel off with msgLen := m + (b.length - off) } =
      (absorber11.absorb { h with msgLen := m } (b.drop off)).1 := by
  have length : (b.drop off).length = b.length - off := List.length_drop
  induction fuel generalizing h off m with
  | zero =>
      have nothing : b.length - off = 0 := by omega
      have short : (b.drop off).length ≤ absorber11.keep := by
        rw [length, nothing]
        exact Nat.zero_le _
      rw [WyhashStateless.updateLoop, absorb_short short, nothing]
      rfl
  | succ fuel ih =>
      rw [WyhashStateless.updateLoop]
      split
      · next inside =>
        obtain ⟨n, isWhole⟩ := whole
        have long : absorber11.keep < (b.drop off).length := by
          rw [length]
          show 31 < _
          omega
        have less : b.length - (off + 32) = 32 * (n - 1) := by omega
        have rest := ih (h.round ((b.drop off).take 32)) (by omega)
          ⟨n - 1, less⟩ (m + 32) List.length_drop
        have same : m + (b.length - off) = m + 32 + (b.length - (off + 32)) := by omega
        rw [absorb_long long, same, rest, List.drop_drop]
        rfl
      · next outside =>
        have nothing : b.length - off = 0 := by omega
        have short : (b.drop off).length ≤ absorber11.keep := by
          rw [length, nothing]
          exact Nat.zero_le _
        rw [absorb_short short, nothing]
        rfl

/-- Whole blocks are absorbed. -/
theorem update_absorbs {b : Bytes} (whole : 32 ∣ b.length) :
    absorber11.absorb h b = (h.update b, []) := by
  apply Prod.ext
  · have rounds := updateLoop_absorbs h b (Nat.le_add_left b.length 0) whole h.msgLen
    rw [List.drop_zero, Nat.sub_zero] at rounds
    simp only [WyhashStateless.update, updateLoop_msgLen]
    exact rounds.symm
  · exact absorb_whole (by decide) h whole

/-- All whole blocks are absorbed, and the rest of the text waits. -/
theorem update_aligned (t : Bytes) :
    absorber11.absorb h t = (h.update (t.take (t.length - t.length % 32)),
      t.drop (t.length - t.length % 32)) := by
  have split := List.take_append_drop (t.length - t.length % 32) t
  have whole : 32 ∣ (t.take (t.length - t.length % 32)).length := by
    rw [List.length_take, Nat.min_eq_left (Nat.sub_le _ _)]
    exact Nat.dvd_sub_mod _
  have short : (t.drop (t.length - t.length % 32)).length ≤ absorber11.keep := by
    rw [List.length_drop]
    show _ ≤ 31
    omega
  have both := absorber11.absorb_append h (t.take (t.length - t.length % 32))
    (t.drop (t.length - t.length % 32))
  rw [update_absorbs h whole, split, List.nil_append, absorb_short short] at both
  exact both

end Stateless

/-! ### The streaming form -/

/-- The state behind a text: its blocks have been absorbed, and what is left of it waits. -/
structure Fed11 (seed : UInt64) (data : Bytes) (h : Wyhash11) : Prop where
  size : h.buf.length = 32
  short : h.bufLen < 32
  absorbed : absorber11.absorb (.init seed) data = (h.state, h.buf.take h.bufLen)

section Copy

variable {buf bytes : Bytes} {pos : Nat}

theorem copyAt_length (fits : pos + bytes.length ≤ buf.length) :
    (Wyhash.copyAt buf pos bytes).length = buf.length := by
  simp only [Wyhash.copyAt, List.length_append, List.length_take, List.length_drop]
  omega

theorem copyAt_take (bytes : Bytes) (fits : pos ≤ buf.length) :
    (Wyhash.copyAt buf pos bytes).take (pos + bytes.length) = buf.take pos ++ bytes := by
  have front : (buf.take pos ++ bytes).length = pos + bytes.length := by
    rw [List.length_append, List.length_take, Nat.min_eq_left fits]
  rw [Wyhash.copyAt, ← front, List.take_left]

end Copy

section Streaming

variable {seed : UInt64} {data : Bytes} {h : Wyhash11}

theorem fed_init (seed : UInt64) : Fed11 seed [] (.init seed) where
  size := List.length_replicate
  short := Nat.zero_lt_succ _
  absorbed := absorb_short (Nat.zero_le _)

/-- Completing the buffer absorbs a block. -/
theorem Fed11.fillBuffer (fed : Fed11 seed data h) (b : Bytes) :
    absorber11.absorb (.init seed) (data ++ b) =
      absorber11.absorb (h.fillBuffer b).1.state
        ((h.fillBuffer b).1.buf.take (h.fillBuffer b).1.bufLen ++ b.drop (h.fillBuffer b).2) ∧
    (h.fillBuffer b).1.buf.length = 32 ∧
    ((h.fillBuffer b).1.bufLen = 0 ∨
      (h.fillBuffer b).2 = 0 ∧ (h.fillBuffer b).1.bufLen + b.length < 32) := by
  have size := fed.size
  have short := fed.short
  have pending := absorber11.absorb_append (.init seed) data b
  rw [fed.absorbed] at pending
  unfold Wyhash11.fillBuffer
  split
  · next fills =>
    dsimp only
    have isOff : (b.take (32 - h.bufLen)).length = 32 - h.bufLen := by
      rw [List.length_take]
      omega
    have filled : Wyhash.copyAt h.buf h.bufLen (b.take (32 - h.bufLen)) =
        h.buf.take h.bufLen ++ b.take (32 - h.bufLen) := by
      have whole := copyAt_take (b.take (32 - h.bufLen)) (show h.bufLen ≤ h.buf.length by omega)
      rw [isOff] at whole
      rw [← whole]
      apply (List.take_of_length_le _).symm
      rw [copyAt_length (by omega)]
      omega
    have isBlock : (h.buf.take h.bufLen ++ b.take (32 - h.bufLen)).length = 32 := by
      rw [List.length_append, List.length_take, isOff]
      omega
    refine ⟨?_, ?_, .inl rfl⟩
    · rw [pending, filled]
      have cut : h.buf.take h.bufLen ++ b =
          h.buf.take h.bufLen ++ b.take (32 - h.bufLen) ++ b.drop (32 - h.bufLen) := by
        rw [List.append_assoc, List.take_append_drop]
      rw [cut, absorber11.absorb_append, update_absorbs h.state ⟨1, isBlock⟩]
      rfl
    · rw [filled]
      exact isBlock
  · next stays =>
    refine ⟨pending, size, ?_⟩
    dsimp only
    by_cases isEmpty : h.bufLen = 0
    · exact .inl isEmpty
    · exact .inr ⟨rfl, by omega⟩

theorem Fed11.update (fed : Fed11 seed data h) (b : Bytes) :
    Fed11 seed (data ++ b) (h.update b) := by
  obtain ⟨absorbed, size, cases⟩ := fed.fillBuffer b
  unfold Wyhash11.update
  generalize h.fillBuffer b = filled at absorbed size cases ⊢
  obtain ⟨h, off⟩ := filled
  dsimp only at absorbed size cases ⊢
  have remainLen : b.length - off = (b.drop off).length := List.length_drop.symm
  rw [remainLen, ← List.drop_drop]
  rcases cases with isEmpty | ⟨rfl, short⟩
  · -- nothing waits, and the whole blocks of what remains are absorbed
    have few : ((b.drop off).drop ((b.drop off).length - (b.drop off).length % 32)).length < 32 := by
      rw [List.length_drop]
      omega
    rw [isEmpty] at absorbed ⊢
    rw [List.take_zero, List.nil_append, update_aligned h.state] at absorbed
    have tail := copyAt_take ((b.drop off).drop
      ((b.drop off).length - (b.drop off).length % 32)) (Nat.zero_le h.buf.length)
    refine ⟨(copyAt_length (by omega)).trans size, ?_, absorbed.trans (Prod.ext rfl tail.symm)⟩
    rw [Nat.zero_add]
    exact few
  · -- all of it waits
    have noBlock : (b.drop 0).length - (b.drop 0).length % 32 = 0 := by
      rw [List.drop_zero]
      omega
    rw [List.drop_zero] at absorbed noBlock ⊢
    rw [noBlock, List.drop_zero, List.take_zero]
    have waiting := copyAt_take b (show h.bufLen ≤ h.buf.length by omega)
    have few : (h.buf.take h.bufLen ++ b).length ≤ absorber11.keep := by
      rw [List.length_append, List.length_take]
      show _ ≤ 31
      omega
    rw [absorb_short few] at absorbed
    exact ⟨(copyAt_length (by omega)).trans size, short,
      absorbed.trans (Prod.ext rfl waiting.symm)⟩

theorem fed_updates (seed : UInt64) (pieces : List Bytes) :
    Fed11 seed pieces.flatten (pieces.foldl Wyhash11.update (.init seed)) := by
  induction pieces using List.reverseRecOn with
  | nil => exact fed_init seed
  | append_singleton pieces piece ih =>
      rw [List.foldl_append, List.flatten_append, List.flatten_singleton]
      exact ih.update piece

/-- The hash of what has been fed is the one-shot hash. -/
theorem Fed11.final (fed : Fed11 seed data h) : h.final_.1 = Wyhash11.hash seed data := by
  have absorbed := fed.absorbed
  rw [update_aligned] at absorbed
  obtain ⟨isState, isPending⟩ := Prod.mk.inj absorbed
  unfold Wyhash11.hash WyhashStateless.hash Wyhash11.final_
  dsimp only
  rw [isState, isPending]

end Streaming

end Bunx.Hashing
