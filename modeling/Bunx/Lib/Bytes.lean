/-
Module: Bunx.Lib.Bytes
Purpose: Chunks of bytes at a position, little-endian integers, and a memory
  that lanes of bytes are written to and moved within.
Trusted boundary: none
Main exports: At, leBytes, leValue, leBytes_add, readLe, Mem, Mem.write, Mem.copy, Mem.compact,
  Mem.Holds
-/
import Mathlib.Algebra.Ring.Int.Defs
import Mathlib.Algebra.Ring.Nat
import Mathlib.Data.List.Infix

namespace Bunx.Lib

/-! ### Chunks at a position -/

/-- The bytes from a position on begin with a chunk. -/
def At (bytes : List UInt8) (pos : Nat) (chunk : List UInt8) : Prop :=
  chunk <+: bytes.drop pos

namespace At

variable {bytes more chunk rest : List UInt8} {pos : Nat}

theorem of_append (before chunk after : List UInt8) :
    At (before ++ chunk ++ after) before.length chunk := by
  rw [At, List.append_assoc, List.drop_left]
  exact List.prefix_append _ _

/-- More bytes behind keep a chunk where it is. -/
theorem extend (here : At bytes pos chunk) (more : List UInt8) :
    At (bytes ++ more) pos chunk := by
  obtain ⟨after, same⟩ := here
  by_cases inside : pos ≤ bytes.length
  · refine ⟨after ++ more, ?_⟩
    rw [List.drop_append_of_le_length inside, ← same, List.append_assoc]
  · rw [List.drop_eq_nil_of_le (Nat.le_of_not_le inside)] at same
    rw [(List.append_eq_nil_iff.mp same).1]
    exact List.nil_prefix

theorem left (here : At bytes pos (chunk ++ rest)) : At bytes pos chunk :=
  (List.prefix_append chunk rest).trans here

theorem right (here : At bytes pos (chunk ++ rest)) :
    At bytes (pos + chunk.length) rest := by
  obtain ⟨after, same⟩ := here
  refine ⟨after, ?_⟩
  rw [← List.drop_drop, ← same, List.append_assoc, List.drop_left]

theorem fits (here : At bytes pos chunk) (nonempty : chunk ≠ []) :
    pos + chunk.length ≤ bytes.length := by
  have room := List.IsPrefix.length_le here
  rw [List.length_drop] at room
  have positive := List.length_pos_of_ne_nil nonempty
  omega

/-- Every byte of the chunk is a byte of the whole. -/
theorem getElem? (here : At bytes pos chunk) {i : Nat} {b : UInt8}
    (isByte : chunk[i]? = some b) : bytes[pos + i]? = some b := by
  obtain ⟨after, same⟩ := here
  have inside : i < chunk.length := (List.getElem?_eq_some_iff.mp isByte).1
  rw [← List.getElem?_drop, ← same, List.getElem?_append_left inside, isByte]

theorem head {b : UInt8} (here : At bytes pos (b :: rest)) :
    bytes[pos]? = some b :=
  here.getElem? (i := 0) rfl

theorem tail {b : UInt8} (here : At bytes pos (b :: rest)) :
    At bytes (pos + 1) rest := by
  have split : At bytes pos ([b] ++ rest) := here
  exact split.right

theorem take_drop (here : At bytes pos chunk) :
    (bytes.drop pos).take chunk.length = chunk := by
  obtain ⟨after, same⟩ := here
  rw [← same, List.take_left]

end At

/-! ### Little-endian integers -/

/-- The `n` low bytes of a number, least significant first. -/
def leBytes : Nat → Nat → List UInt8
  | 0, _ => []
  | n + 1, v => UInt8.ofNat (v % 256) :: leBytes n (v / 256)

def leValue : List UInt8 → Nat
  | [] => 0
  | b :: rest => b.toNat + 256 * leValue rest

@[simp] theorem leBytes_length (n v : Nat) : (leBytes n v).length = n := by
  induction n generalizing v with
  | zero => rfl
  | succ n ih => simp [leBytes, ih]

theorem leValue_leBytes {n v : Nat} (fits : v < 256 ^ n) :
    leValue (leBytes n v) = v := by
  induction n generalizing v with
  | zero =>
      simp only [Nat.pow_zero, Nat.lt_one_iff] at fits
      simp [leBytes, leValue, fits]
  | succ n ih =>
      have smaller : v / 256 < 256 ^ n := by
        rw [Nat.div_lt_iff_lt_mul (by decide), ← Nat.pow_succ]
        exact fits
      have low : (UInt8.ofNat (v % 256)).toNat = v % 256 := by
        rw [UInt8.toNat_ofNat']
        omega
      rw [leBytes, leValue, ih smaller, low]
      omega

theorem leValue_append (low high : List UInt8) :
    leValue (low ++ high) = leValue low + 256 ^ low.length * leValue high := by
  induction low with
  | nil => simp [leValue]
  | cons b low ih =>
      rw [List.cons_append, leValue, leValue, ih, List.length_cons,
        Nat.pow_succ', Nat.mul_add, Nat.mul_assoc, Nat.add_assoc]

theorem leBytes_add (n m v : Nat) :
    leBytes (n + m) v = leBytes n v ++ leBytes m (v / 256 ^ n) := by
  induction n generalizing v with
  | zero => simp [leBytes]
  | succ n ih =>
      have quotient : v / 256 / 256 ^ n = v / 256 ^ (n + 1) := by
        rw [Nat.div_div_eq_div_mul, Nat.pow_succ']
      rw [Nat.succ_add, leBytes, leBytes, ih, quotient, List.cons_append]

theorem leBytes_last (n v : Nat) :
    (leBytes (n + 1) v)[n]? = some (UInt8.ofNat (v / 256 ^ n % 256)) := by
  have length := leBytes_length n v
  rw [leBytes_add n 1, List.getElem?_append_right (Nat.le_of_eq length), length,
    Nat.sub_self]
  rfl

theorem leBytes_mod (n v : Nat) : leBytes n (v % 256 ^ n) = leBytes n v := by
  induction n generalizing v with
  | zero => rfl
  | succ n ih =>
      have low : v % 256 ^ (n + 1) % 256 = v % 256 := by
        apply Nat.mod_mod_of_dvd
        rw [Nat.pow_succ]
        exact Nat.dvd_mul_left 256 _
      have high : v % 256 ^ (n + 1) / 256 = v / 256 % 256 ^ n := by
        rw [Nat.pow_succ', Nat.mod_mul_right_div_self]
      rw [leBytes, leBytes, low, high, ih]

/-- Read `n` bytes as a little-endian number; `none` past the end. -/
def readLe (bytes : List UInt8) (off n : Nat) : Option Nat :=
  if off + n ≤ bytes.length then some (leValue ((bytes.drop off).take n)) else none

theorem readLe_leBytes {bytes : List UInt8} {off n v : Nat} (positive : 0 < n)
    (fits : v < 256 ^ n) (here : At bytes off (leBytes n v)) :
    readLe bytes off n = some v := by
  have nonempty : leBytes n v ≠ [] := by
    rw [Ne, ← List.length_eq_zero_iff, leBytes_length]
    omega
  have inside := here.fits nonempty
  have chunk := here.take_drop
  rw [leBytes_length] at inside chunk
  rw [readLe, if_pos inside, chunk, leValue_leBytes fits]

/-! ### Memory -/

/-- A buffer whose bytes are not initialised: any content. -/
abbrev Mem := Nat → UInt8

namespace Mem

/-- Write a run of bytes. -/
def write (m : Mem) (pos : Nat) (bytes : List UInt8) : Mem := fun i =>
  if pos ≤ i then (bytes[i - pos]?).getD (m i) else m i

/-- `ptr::copy`: the target gets what the source held before. -/
def copy (m : Mem) (src dst len : Nat) : Mem := fun i =>
  if dst ≤ i ∧ i < dst + len then m (src + (i - dst)) else m i

/-- The first `n` bytes. -/
def slice (m : Mem) (n : Nat) : List UInt8 := (List.range n).map m

/-- The memory holds a chunk at a position. -/
def Holds (m : Mem) (pos : Nat) (chunk : List UInt8) : Prop :=
  ∀ i b, chunk[i]? = some b → m (pos + i) = b

variable {m : Mem} {pos : Nat} {chunk rest : List UInt8}

theorem write_of_outside {i : Nat} (outside : i < pos ∨ pos + chunk.length ≤ i) :
    m.write pos chunk i = m i := by
  unfold write
  split
  · rw [List.getElem?_eq_none (by omega)]
    rfl
  · rfl

@[simp] theorem write_nil (m : Mem) (pos : Nat) : m.write pos [] = m := by
  funext i
  unfold write
  split <;> rfl

/-- Two runs one behind the other are one. -/
theorem write_write (m : Mem) (pos : Nat) (chunk rest : List UInt8) :
    (m.write pos chunk).write (pos + chunk.length) rest = m.write pos (chunk ++ rest) := by
  funext i
  unfold write
  by_cases behind : pos + chunk.length ≤ i
  · rw [if_pos behind, if_pos (by omega), if_pos (by omega),
      List.getElem?_append_right (by omega), List.getElem?_eq_none (l := chunk) (by omega),
      show i - pos - chunk.length = i - (pos + chunk.length) by omega]
    rfl
  · rw [if_neg behind]
    by_cases inside : pos ≤ i
    · rw [if_pos inside, if_pos inside, List.getElem?_append_left (by omega)]
    · rw [if_neg inside, if_neg inside]

theorem copy_of_outside {src dst len i : Nat} (outside : i < dst ∨ dst + len ≤ i) :
    m.copy src dst len i = m i := by
  unfold copy
  rw [if_neg (by omega)]

theorem holds_write (m : Mem) (pos : Nat) (chunk : List UInt8) :
    (m.write pos chunk).Holds pos chunk := by
  intro i b isByte
  unfold write
  rw [if_pos (Nat.le_add_right _ _), Nat.add_sub_cancel_left, isByte]
  rfl

/-- What happens elsewhere leaves a chunk alone. -/
theorem Holds.frame {m' : Mem} (holds : m.Holds pos chunk)
    (same : ∀ i, pos ≤ i → i < pos + chunk.length → m' i = m i) :
    m'.Holds pos chunk := by
  intro i b isByte
  have inside : i < chunk.length := (List.getElem?_eq_some_iff.mp isByte).1
  rw [same (pos + i) (by omega) (by omega)]
  exact holds i b isByte

theorem Holds.nil : m.Holds pos [] := by
  intro i b isByte
  simp at isByte

theorem Holds.append (first : m.Holds pos chunk)
    (second : m.Holds (pos + chunk.length) rest) : m.Holds pos (chunk ++ rest) := by
  intro i b isByte
  by_cases inside : i < chunk.length
  · rw [List.getElem?_append_left inside] at isByte
    exact first i b isByte
  · rw [List.getElem?_append_right (Nat.le_of_not_lt inside)] at isByte
    have found := second _ b isByte
    rwa [show pos + chunk.length + (i - chunk.length) = pos + i by omega] at found

/-- A chunk grows by what is written right behind it. -/
theorem Holds.write_append (holds : m.Holds pos chunk) :
    (m.write (pos + chunk.length) rest).Holds pos (chunk ++ rest) := by
  refine Holds.append (holds.frame fun i _ before => ?_) (holds_write m _ rest)
  exact write_of_outside (.inl before)

/-- `ptr::copy` brings a chunk to its target. -/
theorem Holds.copy {src dst : Nat} (holds : m.Holds src chunk) :
    (m.copy src dst chunk.length).Holds dst chunk := by
  intro i b isByte
  have inside : i < chunk.length := (List.getElem?_eq_some_iff.mp isByte).1
  unfold Mem.copy
  rw [if_pos (by omega), Nat.add_sub_cancel_left]
  exact holds i b isByte

/-- Runs of `(source, length)` copied one behind the other, and the position behind
the last of them. -/
def compact (m : Mem) (dst : Nat) : List (Nat × Nat) → Mem × Nat
  | [] => (m, dst)
  | (src, len) :: runs => compact (m.copy src dst len) (dst + len) runs

/-- Each run holds its chunk, at or behind where it is copied to, and ends before
the next. -/
def Runs (m : Mem) : Nat → Nat → List (Nat × Nat) → List (List UInt8) → Prop
  | _, _, [], [] => True
  | dst, low, (src, len) :: runs, chunk :: chunks =>
      dst ≤ src ∧ low ≤ src ∧ len = chunk.length ∧ m.Holds src chunk ∧
        Runs m (dst + len) (src + len) runs chunks
  | _, _, _, _ => False

theorem Runs.frame {m' : Mem} {dst low : Nat} {runs : List (Nat × Nat)}
    {chunks : List (List UInt8)} (ready : Runs m dst low runs chunks)
    (same : ∀ i, low ≤ i → m' i = m i) : Runs m' dst low runs chunks := by
  induction runs generalizing dst low chunks with
  | nil =>
      cases chunks with
      | nil => exact trivial
      | cons _ _ => exact ready.elim
  | cons run runs ih =>
      cases chunks with
      | nil => exact ready.elim
      | cons chunk chunks =>
          obtain ⟨ahead, above, length, holds, later⟩ := ready
          refine ⟨ahead, above, length, holds.frame fun i lower _ => ?_, ?_⟩
          · exact same i (Nat.le_trans above lower)
          · apply ih later
            intro i lower
            exact same i (by omega)

/-- Copying to the left brings every run to its place and leaves what lies before. -/
theorem compact_runs {dst low : Nat} {runs : List (Nat × Nat)}
    {chunks : List (List UInt8)} (ready : Runs m dst low runs chunks) :
    (m.compact dst runs).2 = dst + chunks.flatten.length ∧
      (m.compact dst runs).1.Holds dst chunks.flatten ∧
      ∀ i, i < dst → (m.compact dst runs).1 i = m i := by
  induction runs generalizing m dst low chunks with
  | nil =>
      cases chunks with
      | nil => exact ⟨rfl, Holds.nil, fun _ _ => rfl⟩
      | cons _ _ => exact ready.elim
  | cons run runs ih =>
      cases chunks with
      | nil => exact ready.elim
      | cons chunk chunks =>
          obtain ⟨src, len⟩ := run
          obtain ⟨ahead, above, rfl, holds, later⟩ := ready
          have moved : Runs (m.copy src dst chunk.length) (dst + chunk.length)
              (src + chunk.length) runs chunks := by
            apply later.frame
            intro i lower
            exact copy_of_outside (.inr (by omega))
          obtain ⟨position, rest, before⟩ := ih moved
          refine ⟨?_, ?_, fun i lower => ?_⟩
          · rw [compact, position, List.flatten_cons, List.length_append]
            omega
          · apply Holds.append _ rest
            apply holds.copy.frame
            intro i _ inside
            exact before i inside
          · rw [compact, before i (by omega), copy_of_outside (.inl lower)]

theorem Holds.slice_eq {n : Nat} (holds : m.Holds 0 chunk) (length : chunk.length = n) :
    m.slice n = chunk := by
  subst length
  apply List.ext_getElem?
  intro i
  by_cases inside : i < chunk.length
  · have byte := holds i _ (List.getElem?_eq_getElem inside)
    rw [Nat.zero_add] at byte
    simp [slice, inside, byte]
  · have outside := Nat.le_of_not_lt inside
    rw [List.getElem?_eq_none outside, List.getElem?_eq_none (by simpa [slice] using outside)]

end Mem

end Bunx.Lib
