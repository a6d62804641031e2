/-
Module: Bunx.IsolatedInstall.Wyhash
Purpose: The hasher of the global store: wyhash with rounds of 48 bytes, fed piece by piece.
Trusted boundary: none
Main exports: Wyhash, Wyhash.init, Wyhash.update, Wyhash.final_, Wyhash.hash
-/
import Bunx.Lib.Bytes

namespace Bunx.IsolatedInstall

open Bunx.Lib

abbrev Bytes := List UInt8

/-- `buf` has 48 bytes, `bufLen` of which are waiting to be hashed; those behind them are the
last bytes of the round before. -/
structure Wyhash where
  a : UInt64
  b : UInt64
  state0 : UInt64
  state1 : UInt64
  state2 : UInt64
  totalLen : Nat
  buf : Bytes
  bufLen : Nat

namespace Wyhash

def secret0 : UInt64 := 0xa0761d6478bd642f
def secret1 : UInt64 := 0xe7037ed1a0b428db
def secret2 : UInt64 := 0x8ebc6af09c88c6e3
def secret3 : UInt64 := 0x589965cc75374cc3

def read4 (data : Bytes) : UInt64 := UInt64.ofNat (leValue (data.take 4))

def read8 (data : Bytes) : UInt64 := UInt64.ofNat (leValue (data.take 8))

/-- The two halves of the product of 128 bits, the low one first. -/
def mum (a b : UInt64) : UInt64 × UInt64 :=
  let x := a.toNat * b.toNat
  (UInt64.ofNat (x % 2 ^ 64), UInt64.ofNat (x / 2 ^ 64))

def mix (a b : UInt64) : UInt64 :=
  let (low, high) := mum a b
  low ^^^ high

def init (seed : UInt64) : Wyhash :=
  let s0 := seed ^^^ mix (seed ^^^ secret0) secret1
  { a := 0, b := 0, state0 := s0, state1 := s0, state2 := s0, totalLen := 0
    buf := List.replicate 48 0, bufLen := 0 }

/-- `buf[at..at + bytes.len()].copy_from_slice(bytes)`. -/
def copyAt (buf : Bytes) (pos : Nat) (bytes : Bytes) : Bytes :=
  buf.take pos ++ bytes ++ buf.drop (pos + bytes.length)

def round (h : Wyhash) (input : Bytes) : Wyhash :=
  { h with
    state0 := mix (read8 input ^^^ secret1) (read8 (input.drop 8) ^^^ h.state0)
    state1 := mix (read8 (input.drop 16) ^^^ secret2) (read8 (input.drop 24) ^^^ h.state1)
    state2 := mix (read8 (input.drop 32) ^^^ secret3) (read8 (input.drop 40) ^^^ h.state2) }

/-- Full blocks from `i` on, the last one excepted. -/
def rounds (input : Bytes) : Nat → Wyhash → Nat → Wyhash × Nat
  | 0, h, i => (h, i)
  | fuel + 1, h, i =>
      if i + 48 < input.length then
        rounds input fuel (h.round ((input.drop i).take 48)) (i + 48)
      else (h, i)

def update (h : Wyhash) (input : Bytes) : Wyhash :=
  let h := { h with totalLen := h.totalLen + input.length }
  if input.length ≤ 48 - h.bufLen then
    { h with buf := copyAt h.buf h.bufLen input, bufLen := h.bufLen + input.length }
  else
    let (h, i) :=
      if h.bufLen > 0 then
        let i := 48 - h.bufLen
        let buf := copyAt h.buf h.bufLen (input.take i)
        ({ h.round buf with buf := buf, bufLen := 0 }, i)
      else (h, 0)
    let (h, i) := rounds input input.length h i
    let remaining := input.drop i
    let buf :=
      if remaining.length < 16 ∧ i ≥ 48 then
        let rem := 16 - remaining.length
        copyAt h.buf (48 - rem) ((input.drop (i - rem)).take rem)
      else h.buf
    { h with buf := copyAt buf 0 remaining, bufLen := remaining.length }

def smallKey (h : Wyhash) (input : Bytes) : Wyhash :=
  let len := input.length
  if len ≥ 4 then
    let last := len - 4
    let quarter := (len >>> 3) <<< 2
    { h with
      a := (read4 input <<< 32) ||| read4 (input.drop quarter)
      b := (read4 (input.drop last) <<< 32) ||| read4 (input.drop (last - quarter)) }
  else if len > 0 then
    let byte (i : Nat) : UInt64 := (input.getD i 0).toUInt64
    { h with a := (byte 0 <<< 16) ||| (byte (len >>> 1) <<< 8) ||| byte (len - 1), b := 0 }
  else { h with a := 0, b := 0 }

def final0 (h : Wyhash) : Wyhash :=
  { h with state0 := h.state0 ^^^ (h.state1 ^^^ h.state2) }

def finalRounds (input : Bytes) : Nat → UInt64 → Nat → UInt64
  | 0, state0, _ => state0
  | fuel + 1, state0, i =>
      if i + 16 < input.length then
        finalRounds input fuel
          (mix (read8 (input.drop i) ^^^ secret1) (read8 (input.drop (i + 8)) ^^^ state0)) (i + 16)
      else state0

def final1 (h : Wyhash) (inputLb : Bytes) (startPos : Nat) : Wyhash :=
  let input := inputLb.drop startPos
  { h with
    state0 := finalRounds input input.length h.state0 0
    a := read8 (inputLb.drop (inputLb.length - 16))
    b := read8 (inputLb.drop (inputLb.length - 8)) }

def final2 (h : Wyhash) : UInt64 :=
  let (a, b) := mum (h.a ^^^ secret1) (h.b ^^^ h.state0)
  mix (a ^^^ secret0 ^^^ UInt64.ofNat h.totalLen) (b ^^^ secret1)

def final_ (h : Wyhash) : UInt64 :=
  let input := h.buf.take h.bufLen
  if h.totalLen ≤ 16 then (h.smallKey input).final2
  else if h.bufLen < 16 then
    let rem := 16 - h.bufLen
    let scratch := (h.buf.drop (48 - rem)).take rem ++ input
    (h.final0.final1 scratch rem).final2
  else (h.final0.final1 input 0).final2

/-- The rounds of `hash`, which are written out there. -/
def hashRounds (input : Bytes) (bound : Nat) : Nat → Wyhash → Nat → Wyhash × Nat
  | 0, h, i => (h, i)
  | fuel + 1, h, i =>
      if i < bound then
        let r8 (o : Nat) : UInt64 := read8 (input.drop (i + o))
        hashRounds input bound fuel
          { h with
            state0 := mix (r8 0 ^^^ secret1) (r8 8 ^^^ h.state0)
            state1 := mix (r8 16 ^^^ secret2) (r8 24 ^^^ h.state1)
            state2 := mix (r8 32 ^^^ secret3) (r8 40 ^^^ h.state2) } (i + 48)
      else (h, i)

/-- The one-shot form. -/
def hash (seed : UInt64) (input : Bytes) : UInt64 :=
  let this := init seed
  let this :=
    if input.length ≤ 16 then this.smallKey input
    else if input.length ≥ 48 then
      let (this, i) := hashRounds input (input.length - 48) input.length this 0
      this.final0.final1 input i
    else this.final1 input 0
  { this with totalLen := input.length }.final2

end Wyhash

end Bunx.IsolatedInstall
