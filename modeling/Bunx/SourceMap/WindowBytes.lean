/-
Module: Bunx.SourceMap.WindowBytes
Purpose: The layout of a window, and that flushing writes it whatever the spare
  capacity held before.
Trusted boundary: none
Main exports: laneBytes, maskBits, windowBytes, Image, writeWindow_eq
-/
import Bunx.SourceMap.Builder

namespace Bunx.SourceMap

open Lib

/-! ### The layout -/

/-- What the delta at index `k` adds to a section. -/
def Lane.bytes (k : Nat) (d : Delta) : Lane → List UInt8
  | .genCol => writeVarint d.genCol
  | .origLine => if d.origLine = d.genLine then [] else writeVarint d.origLine
  | .origCol => if d.origCol = d.genCol then [] else writeVarint d.origCol
  | .genLine =>
      if d.lineException then UInt8.ofNat k :: writeVarint d.genLine else []
  | .srcIdx => if d.srcIdx = 0 then [] else writeVarint d.srcIdx

/-- The section of the deltas from index `k` on. -/
def laneBytes (lane : Lane) : Nat → List Delta → List UInt8
  | _, [] => []
  | k, d :: ds => lane.bytes k d ++ laneBytes lane (k + 1) ds

/-- The bit of a delta in a mask. -/
def Mask.bitOf (d : Delta) : Mask → Bool
  | .genLine => decide (1 ≤ d.genLine)
  | .origLineEq => decide (d.origLine = d.genLine)
  | .origColEq => decide (d.origCol = d.genCol)
  | .srcIdx => decide (d.srcIdx = 0)

def maskBits (mask : Mask) (ds : List Delta) (k : Nat) : Bool :=
  match ds[k]? with
  | some d => mask.bitOf d
  | none => false

def Delta.flags (d : Delta) : UInt8 :=
  (if d.lineException then flagHasGenLineExceptions else 0) |||
    (if d.srcIdx = 0 then 0 else flagHasSrcIdx)

def flagsOf : List Delta → UInt8
  | [] => 0
  | d :: ds => d.flags ||| flagsOf ds

def genLineSection (ds : List Delta) : List UInt8 :=
  if flagsOf ds &&& flagHasGenLineExceptions ≠ 0 then laneBytes .genLine 0 ds ++ [0xFF]
  else []

def srcIdxSection (ds : List Delta) : List UInt8 :=
  if flagsOf ds &&& flagHasSrcIdx ≠ 0 then
    maskBytes 8 (maskBits .srcIdx ds) ++ laneBytes .srcIdx 0 ds
  else []

/-- The 32 bytes in front of the sections. -/
def windowHeader (ds : List Delta) : List UInt8 :=
  [UInt8.ofNat (ds.length + 1)] ++ [flagsOf ds] ++
    leBytes 2 (laneBytes .genCol 0 ds).length ++
    leBytes 2 (laneBytes .origLine 0 ds).length ++
    leBytes 2 (laneBytes .origCol 0 ds).length ++
    maskBytes 8 (maskBits .genLine ds) ++ maskBytes 8 (maskBits .origLineEq ds) ++
    maskBytes 8 (maskBits .origColEq ds)

/-- The sections behind the first, in layout order. -/
def laterSections (ds : List Delta) : List (List UInt8) :=
  [laneBytes .origLine 0 ds, laneBytes .origCol 0 ds, genLineSection ds,
   srcIdxSection ds]

/-- A window, byte by byte. -/
def windowBytes (ds : List Delta) : List UInt8 :=
  windowHeader ds ++ laneBytes .genCol 0 ds ++ (laterSections ds).flatten

@[simp] theorem windowHeader_length (ds : List Delta) :
    (windowHeader ds).length = 32 := by
  simp [windowHeader]

/-! ### Sizes -/

/-- How much one delta adds to a section at most. -/
def Lane.step : Lane → Nat
  | .genLine => 6
  | _ => 5

/-- The sub-range of a section; one more byte for the `0xFF`. -/
def Lane.width (n : Nat) : Lane → Nat
  | .genLine => 6 * n + 1
  | _ => 5 * n

theorem Lane.bytes_length_le (lane : Lane) (k : Nat) (d : Delta) :
    (lane.bytes k d).length ≤ lane.step := by
  have short := writeVarint_length_le
  cases lane with
  | genCol =>
      exact short d.genCol
  | origLine =>
      simp only [Lane.bytes, Lane.step]
      split
      · exact Nat.zero_le _
      · exact short _
  | origCol =>
      simp only [Lane.bytes, Lane.step]
      split
      · exact Nat.zero_le _
      · exact short _
  | genLine =>
      simp only [Lane.bytes, Lane.step]
      split
      · exact Nat.succ_le_succ (short _)
      · exact Nat.zero_le _
  | srcIdx =>
      simp only [Lane.bytes, Lane.step]
      split
      · exact Nat.zero_le _
      · exact short _

theorem laneBytes_append (lane : Lane) (k : Nat) (ds : List Delta) (d : Delta) :
    laneBytes lane k (ds ++ [d]) =
      laneBytes lane k ds ++ lane.bytes (k + ds.length) d := by
  induction ds generalizing k with
  | nil => simp [laneBytes]
  | cons d' ds ih =>
      have index : k + 1 + ds.length = k + (ds.length + 1) := by omega
      simp only [List.cons_append, laneBytes, ih, List.append_assoc,
        List.length_cons, index]

theorem laneBytes_length_le (lane : Lane) (k : Nat) (ds : List Delta) :
    (laneBytes lane k ds).length ≤ lane.step * ds.length := by
  induction ds generalizing k with
  | nil => simp [laneBytes]
  | cons d ds ih =>
      have one := lane.bytes_length_le k d
      have rest := ih (k + 1)
      rw [laneBytes, List.length_append, List.length_cons, Nat.mul_succ]
      omega

theorem maskBits_append (mask : Mask) (ds : List Delta) (d : Delta) (k : Nat) :
    maskBits mask (ds ++ [d]) k =
      (maskBits mask ds k || (mask.bitOf d && decide (ds.length = k))) := by
  simp only [maskBits]
  rcases Nat.lt_trichotomy k ds.length with before | rfl | behind
  · have other : ds.length ≠ k := Nat.ne_of_gt before
    rw [List.getElem?_append_left before]
    simp [other]
  · simp
  · have other : ds.length ≠ k := Nat.ne_of_lt behind
    rw [List.getElem?_eq_none (by simp; omega), List.getElem?_eq_none (by omega)]
    simp [other]

/-! ### The buffer while a window is written -/

/-- What the buffer and the cursors stand for: the bytes of each section, the bits
of each mask. -/
structure Image (n : Nat) (s : Emit) (lanes : Lane → List UInt8)
    (bits : Mask → Nat → Bool) : Prop where
  holds : ∀ lane, s.buf.Holds (lane.base n) (lanes lane)
  cursor : ∀ lane, s.w lane = lane.base n + (lanes lane).length
  fits : ∀ lane, (lanes lane).length ≤ lane.width n
  bit : ∀ mask k, k < 64 → s.buf.bit (mask.base n) k = bits mask k
  count : s.buf 0 = UInt8.ofNat (n + 1)

/-- The sub-ranges of two sections do not meet. -/
theorem Lane.disjoint (n : Nat) {lane lane' : Lane} (other : lane ≠ lane') :
    lane.base n + lane.width n ≤ lane'.base n ∨
      lane'.base n + lane'.width n ≤ lane.base n := by
  cases lane <;> cases lane' <;>
    simp only [Lane.base, Lane.width, srcIdxBase, maxVarintLen, ne_eq, reduceCtorEq,
      not_false_eq_true, not_true_eq_false] at other ⊢ <;> omega

/-- The masks lie outside the sections. -/
theorem Mask.outside (n : Nat) (mask : Mask) (lane : Lane) :
    mask.base n + 8 ≤ lane.base n ∨ lane.base n + lane.width n ≤ mask.base n := by
  cases mask <;> cases lane <;>
    simp only [Mask.base, Lane.base, Lane.width, srcIdxBase, maxVarintLen] <;> omega

theorem Mask.disjoint (n : Nat) {mask mask' : Mask} (other : mask ≠ mask') :
    mask.base n + 8 ≤ mask'.base n ∨ mask'.base n + 8 ≤ mask.base n := by
  cases mask <;> cases mask' <;>
    simp only [Mask.base, srcIdxBase, maxVarintLen, ne_eq, reduceCtorEq,
      not_false_eq_true, not_true_eq_false] at other ⊢ <;> omega

theorem Lane.base_ge (n : Nat) (lane : Lane) : 32 ≤ lane.base n := by
  cases lane <;> simp only [Lane.base, srcIdxBase] <;> omega

theorem Mask.base_ge (n : Nat) (mask : Mask) : 8 ≤ mask.base n := by
  cases mask <;> simp only [Mask.base, srcIdxBase] <;> omega

namespace Image

variable {n : Nat} {s : Emit} {lanes : Lane → List UInt8} {bits : Mask → Nat → Bool}

/-- Writing at a cursor extends that section and nothing else. -/
theorem put (image : Image n s lanes bits) (lane : Lane) (bytes : List UInt8)
    (room : (lanes lane ++ bytes).length ≤ lane.width n) :
    Image n (s.put lane bytes) (Function.update lanes lane (lanes lane ++ bytes))
      bits := by
  have cursor := image.cursor lane
  rw [List.length_append] at room
  constructor
  · intro lane'
    by_cases same : lane' = lane
    · subst same
      rw [Function.update_self]
      simp only [Emit.put, cursor]
      exact (image.holds lane').write_append
    · rw [Function.update_of_ne same]
      apply (image.holds lane').frame
      intro i lower upper
      have fits := image.fits lane'
      have apart := Lane.disjoint n same
      exact Mem.write_of_outside (by omega)
  · intro lane'
    by_cases same : lane' = lane
    · subst same
      simp only [Emit.put, Function.update_self, cursor, List.length_append]
      omega
    · simp only [Emit.put, Function.update_of_ne same]
      exact image.cursor lane'
  · intro lane'
    by_cases same : lane' = lane
    · subst same
      rw [Function.update_self, List.length_append]
      exact room
    · rw [Function.update_of_ne same]
      exact image.fits lane'
  · intro mask k small
    rw [← image.bit mask k small]
    apply Mem.bit_frame
    have apart := mask.outside n lane
    exact Mem.write_of_outside (by omega)
  · have low := lane.base_ge n
    rw [← image.count]
    exact Mem.write_of_outside (.inl (by omega))

/-- Setting a bit changes that bit and nothing else. -/
theorem orBit (image : Image n s lanes bits) (mask : Mask) {k : Nat} (small : k < 64) :
    Image n (s.orBit n mask k) lanes
      (Function.update bits mask fun i => bits mask i || decide (k = i)) := by
  constructor
  · intro lane
    apply (image.holds lane).frame
    intro i lower upper
    have fits := image.fits lane
    have apart := mask.outside n lane
    exact Mem.orBit_of_outside (by omega)
  · exact image.cursor
  · exact image.fits
  · intro mask' i inside
    by_cases same : mask' = mask
    · subst same
      rw [Function.update_self, ← image.bit mask' i inside]
      exact Mem.bit_orBit i
    · rw [Function.update_of_ne same, ← image.bit mask' i inside]
      apply Mem.bit_frame
      have apart := Mask.disjoint n same
      exact Mem.orBit_of_outside (by omega)
  · have low := mask.base_ge n
    rw [← image.count]
    exact Mem.orBit_of_outside (.inl (by omega))

theorem orFlags (image : Image n s lanes bits) (flag : UInt8) :
    Image n (s.orFlags flag) lanes bits :=
  ⟨image.holds, image.cursor, image.fits, image.bit, image.count⟩

/-- A conditional bit. -/
theorem orBit_if (image : Image n s lanes bits) (mask : Mask) {k : Nat} (small : k < 64)
    (c : Prop) [Decidable c] :
    Image n (if c then s.orBit n mask k else s) lanes
      (Function.update bits mask fun i => bits mask i || (decide c && decide (k = i))) := by
  by_cases set : c
  · simpa [set] using image.orBit mask small
  · simpa [set] using image

/-- Either the bit or the bytes. -/
theorem orBit_or_put (image : Image n s lanes bits) (mask : Mask) {k : Nat}
    (small : k < 64) (lane : Lane) (bytes : List UInt8)
    (room : (lanes lane ++ bytes).length ≤ lane.width n) (c : Prop) [Decidable c] :
    Image n (if c then s.orBit n mask k else s.put lane bytes)
      (Function.update lanes lane (lanes lane ++ if c then [] else bytes))
      (Function.update bits mask fun i => bits mask i || (decide c && decide (k = i))) := by
  by_cases set : c
  · simpa [set] using image.orBit mask small
  · simpa [set] using image.put lane bytes room

/-- A pair of an index and a varint, or nothing. -/
theorem exception_if (image : Image n s lanes bits) (lane : Lane) (b : UInt8)
    (bytes : List UInt8) (flag : UInt8)
    (room : (lanes lane ++ b :: bytes).length ≤ lane.width n) (c : Prop) [Decidable c] :
    Image n (if c then ((s.orFlags flag).put lane [b]).put lane bytes else s)
      (Function.update lanes lane (lanes lane ++ if c then b :: bytes else [])) bits := by
  by_cases set : c
  · have less : (lanes lane ++ [b]).length ≤ lane.width n := by
      simp only [List.length_append, List.length_cons, List.length_nil] at room ⊢
      omega
    have first := (image.orFlags flag).put lane [b] less
    have second := first.put lane bytes (by simpa using room)
    simpa [set] using second
  · simpa [set] using image

end Image

@[simp] theorem Emit.put_flags (s : Emit) (lane : Lane) (bytes : List UInt8) :
    (s.put lane bytes).flags = s.flags := rfl

@[simp] theorem Emit.orBit_flags (s : Emit) (n : Nat) (mask : Mask) (k : Nat) :
    (s.orBit n mask k).flags = s.flags := rfl

@[simp] theorem Emit.orFlags_flags (s : Emit) (flag : UInt8) :
    (s.orFlags flag).flags = s.flags ||| flag := rfl

theorem Emit.delta_flags (n k : Nat) (d : Delta) (s : Emit) :
    (Emit.delta n k d s).flags = s.flags ||| d.flags := by
  by_cases line : d.lineException = true <;> by_cases source : d.srcIdx = 0 <;>
    simp only [Emit.delta, Delta.flags, line, source] <;> (repeat' split) <;>
    simp [UInt8.or_assoc]

/-- One turn of the loop extends every section and mask by the delta's share. -/
theorem Image.delta {n k : Nat} {s : Emit} {lanes : Lane → List UInt8}
    {bits : Mask → Nat → Bool} (image : Image n s lanes bits) (d : Delta)
    (small : k < 64) (room : ∀ lane, (lanes lane).length + lane.step ≤ lane.width n) :
    Image n (Emit.delta n k d s) (fun lane => lanes lane ++ lane.bytes k d)
      (fun mask i => bits mask i || (mask.bitOf d && decide (k = i))) := by
  have short (lane : Lane) (bytes : List UInt8) (few : bytes.length ≤ lane.step) :
      (lanes lane ++ bytes).length ≤ lane.width n := by
    have := room lane
    rw [List.length_append]
    omega
  have varint (v : Int) : (writeVarint v).length ≤ 5 := writeVarint_length_le v
  have afterLine := image.orBit_if .genLine small (1 ≤ d.genLine)
  have afterCol := afterLine.put .genCol (writeVarint d.genCol) (short _ _ (varint _))
  have afterOrigLine := afterCol.orBit_or_put .origLineEq small .origLine
    (writeVarint d.origLine) (short _ _ (varint _)) (d.origLine = d.genLine)
  have afterOrigCol := afterOrigLine.orBit_or_put .origColEq small .origCol
    (writeVarint d.origCol) (short _ _ (varint _)) (d.origCol = d.genCol)
  have afterExceptions := afterOrigCol.exception_if .genLine (UInt8.ofNat k)
    (writeVarint d.genLine) flagHasGenLineExceptions
    (short _ _ (Nat.succ_le_succ (varint _))) (d.lineException = true)
  by_cases source : d.srcIdx = 0
  · have result := afterExceptions.orBit .srcIdx small
    convert result using 1
    · simp only [Emit.delta, source, if_true]
    · funext lane
      cases lane <;> simp [Lane.bytes, source, Function.update]
    · funext mask
      cases mask <;> simp [Mask.bitOf, source, Function.update]
  · have result := (afterExceptions.orFlags flagHasSrcIdx).put .srcIdx
      (writeVarint d.srcIdx) (short _ _ (varint _))
    convert result using 1
    · simp only [Emit.delta, source, if_false]
    · funext lane
      cases lane <;> simp [Lane.bytes, source, Function.update]
    · funext mask
      cases mask <;> simp [Mask.bitOf, source, Function.update]

theorem zero_bit {m : Mem} {off k : Nat} (zero : m (off + k / 8) = 0) :
    m.bit off k = false := by
  rw [Mem.bit, zero]
  exact Nat.zero_testBit _

theorem write_zeros {m : Mem} {pos len i : Nat} (lower : pos ≤ i) (upper : i < pos + len) :
    m.write pos (List.replicate len 0) i = 0 := by
  have isZero : (List.replicate len (0 : UInt8))[i - pos]? = some 0 :=
    List.getElem?_replicate_of_lt (by omega)
  have written := Mem.holds_write m pos _ _ _ isZero
  rwa [Nat.add_sub_cancel' lower] at written

/-- Before the loop the sections are empty and no bit is set. -/
theorem image_start (spare : Mem) (n : Nat) :
    Image n (Emit.start spare n) (fun lane => laneBytes lane 0 [])
      (fun mask => maskBits mask []) := by
  constructor
  · intro lane
    exact Mem.Holds.nil
  · intro lane
    rfl
  · intro lane
    exact Nat.zero_le _
  · intro mask k small
    apply zero_bit
    by_cases last : mask = .srcIdx
    · subst last
      exact write_zeros (by simp only [Mask.base]; omega) (by simp only [Mask.base]; omega)
    · have inHeader : 8 ≤ mask.base n ∧ mask.base n + 8 ≤ 32 := by
        cases mask <;> simp [Mask.base] at last ⊢
      have high : 32 < srcIdxBase n := by
        simp only [srcIdxBase]
        omega
      simp only [Emit.start]
      rw [Mem.write_of_outside (.inl (by omega)),
        Mem.write_of_outside (.inr (by simp only [List.length_singleton]; omega))]
      exact write_zeros (Nat.zero_le _) (by omega)
  · have high : 32 < srcIdxBase n := by
      simp only [srcIdxBase]
      omega
    simp only [Emit.start]
    rw [Mem.write_of_outside (.inl (by omega))]
    exact Mem.holds_write _ 0 _ 0 _ rfl

theorem Lane.step_width {n j : Nat} (lane : Lane) (before : j < n) :
    lane.step * j + lane.step ≤ lane.width n := by
  cases lane <;> simp only [Lane.step, Lane.width] <;> omega

/-- The loop turns the image of the deltas done into the image of all. -/
theorem Image.loop {n : Nat} {s : Emit} {before ds : List Delta} (few : n < 64)
    (all : (before ++ ds).length = n)
    (image : Image n s (fun lane => laneBytes lane 0 before)
      (fun mask => maskBits mask before)) :
    Image n (Emit.loop n before.length ds s)
        (fun lane => laneBytes lane 0 (before ++ ds))
        (fun mask => maskBits mask (before ++ ds)) ∧
      (Emit.loop n before.length ds s).flags = s.flags ||| flagsOf ds := by
  induction ds generalizing s before with
  | nil =>
      simp only [List.append_nil, Emit.loop, flagsOf, UInt8.or_zero, and_true]
      exact image
  | cons d ds ih =>
      simp only [List.length_append, List.length_cons] at all
      have turn := image.delta d (k := before.length) (by omega) fun lane => by
        have length := laneBytes_length_le lane 0 before
        have width := lane.step_width (n := n) (j := before.length) (by omega)
        omega
      have extended : Image n (Emit.delta n before.length d s)
          (fun lane => laneBytes lane 0 (before ++ [d]))
          (fun mask => maskBits mask (before ++ [d])) := by
        convert turn using 1
        · funext lane
          rw [laneBytes_append, Nat.zero_add]
        · funext mask i
          exact maskBits_append mask before d i
      have rest := ih (by simp; omega) extended
      simp only [List.append_assoc, List.singleton_append, List.length_append,
        List.length_singleton, Emit.delta_flags] at rest
      rw [Emit.loop, flagsOf, ← UInt8.or_assoc]
      exact rest

/-! ### The flushed window -/

theorem or_and_flag (a b flag : UInt8) :
    (a ||| b) &&& flag = (a &&& flag) ||| (b &&& flag) := by
  apply UInt8.toNat_inj.mp
  simp only [UInt8.toNat_and, UInt8.toNat_or, Nat.and_or_distrib_right]

theorem flagsOf_mem {flag : UInt8} {ds : List Delta} (none : flagsOf ds &&& flag = 0)
    {d : Delta} (member : d ∈ ds) : d.flags &&& flag = 0 := by
  induction ds with
  | nil => cases member
  | cons d' ds ih =>
      rw [flagsOf, or_and_flag, UInt8.or_eq_zero_iff] at none
      cases member with
      | head => exact none.1
      | tail _ later => exact ih none.2 later

theorem Delta.lineException_of_flags {d : Delta}
    (none : d.flags &&& flagHasGenLineExceptions = 0) : d.lineException = false := by
  rw [← Bool.not_eq_true]
  intro line
  by_cases source : d.srcIdx = 0
  · rw [Delta.flags, if_pos line, if_pos source] at none
    exact absurd none (by decide)
  · rw [Delta.flags, if_pos line, if_neg source] at none
    exact absurd none (by decide)

theorem Delta.srcIdx_of_flags {d : Delta} (none : d.flags &&& flagHasSrcIdx = 0) :
    d.srcIdx = 0 := by
  apply Classical.byContradiction
  intro source
  by_cases line : d.lineException = true
  · rw [Delta.flags, if_pos line, if_neg source] at none
    exact absurd none (by decide)
  · rw [Delta.flags, if_neg line, if_neg source] at none
    exact absurd none (by decide)

/-- Without the flag there are no line exceptions. -/
theorem laneBytes_genLine_of_flags {ds : List Delta} (k : Nat)
    (none : ∀ d ∈ ds, d.lineException = false) : laneBytes .genLine k ds = [] := by
  induction ds generalizing k with
  | nil => rfl
  | cons d ds ih =>
      have first := none d (List.mem_cons_self ..)
      have rest := ih (k + 1) fun d' member =>
        none d' (List.mem_cons_of_mem _ member)
      simp [laneBytes, Lane.bytes, first, rest]

/-- The sections as they stand when the terminator is written. -/
def sections (ds : List Delta) : Lane → List UInt8
  | .genLine => genLineSection ds
  | lane => laneBytes lane 0 ds

theorem sections_eq (ds : List Delta) :
    sections ds = Function.update (fun lane => laneBytes lane 0 ds) .genLine
      (genLineSection ds) := by
  funext lane
  cases lane <;> rfl

/-- The loop and the terminator leave every section and mask in its sub-range. -/
theorem image_terminate (spare : Mem) {ds : List Delta} (few : ds.length < 64) :
    Image ds.length
        (Emit.loop ds.length 0 ds (Emit.start spare ds.length)).terminate
        (sections ds) (fun mask => maskBits mask ds) ∧
      (Emit.loop ds.length 0 ds (Emit.start spare ds.length)).terminate.flags =
        flagsOf ds := by
  have all : ([] ++ ds).length = ds.length := by rw [List.nil_append]
  obtain ⟨image, flags⟩ := Image.loop few all (image_start spare ds.length)
  simp only [List.nil_append, List.length_nil] at image flags
  have flagsEq : (Emit.loop ds.length 0 ds (Emit.start spare ds.length)).flags =
      flagsOf ds := by
    rw [flags]
    exact UInt8.zero_or
  rw [Emit.terminate, flagsEq, sections_eq, genLineSection]
  by_cases line : flagsOf ds &&& flagHasGenLineExceptions ≠ 0
  · rw [if_pos line, if_pos line]
    have length := laneBytes_length_le .genLine 0 ds
    constructor
    · apply image.put .genLine [0xFF]
      simp only [List.length_append, List.length_singleton, Lane.width, Lane.step] at *
      omega
    · exact flagsEq
  · rw [if_neg line, if_neg line]
    have none := Classical.not_not.mp line
    have nothing := laneBytes_genLine_of_flags 0 fun d member =>
      Delta.lineException_of_flags (flagsOf_mem none member)
    refine ⟨?_, flagsEq⟩
    rw [← nothing]
    convert image using 1
    exact Function.update_eq_self ..

theorem Emit.header_of_behind {n i : Nat} {s : Emit} (behind : 8 ≤ i) :
    s.header n i = s.buf i := by
  simp only [Emit.header]
  rw [Mem.write_of_outside (.inr (by simp; omega)),
    Mem.write_of_outside (.inr (by simp; omega)),
    Mem.write_of_outside (.inr (by simp; omega)),
    Mem.write_of_outside (.inr (by simp; omega))]

section Flushed

variable {ds : List Delta} {s : Emit}
  (image : Image ds.length s (sections ds) fun mask => maskBits mask ds)
  (flags : s.flags = flagsOf ds)
include image

theorem Image.len_eq (lane : Lane) : s.len ds.length lane = (sections ds lane).length := by
  rw [Emit.len, image.cursor, Nat.add_sub_cancel_left]

theorem Image.header_section (lane : Lane) :
    (s.header ds.length).Holds (lane.base ds.length) (sections ds lane) := by
  apply (image.holds lane).frame
  intro i lower _
  have low := lane.base_ge ds.length
  exact Emit.header_of_behind (by omega)

theorem Image.header_mask (mask : Mask) :
    (s.header ds.length).Holds (mask.base ds.length) (maskBytes 8 (maskBits mask ds)) := by
  apply Mem.holds_mask
  intro k small
  have low := mask.base_ge ds.length
  rw [← image.bit mask k small]
  apply Mem.bit_frame
  exact Emit.header_of_behind (by omega)

include flags

/-- The header is complete once flags and lengths are written. -/
theorem Image.holds_header : (s.header ds.length).Holds 0 (windowHeader ds) := by
  have count : s.buf.Holds 0 [UInt8.ofNat (ds.length + 1)] := by
    intro i b isByte
    cases i with
    | zero =>
        cases isByte
        exact image.count
    | succ i => cases isByte
  have lengths : (s.header ds.length).Holds 0 ([UInt8.ofNat (ds.length + 1)] ++
      [flagsOf ds] ++ leBytes 2 (laneBytes .genCol 0 ds).length ++
      leBytes 2 (laneBytes .origLine 0 ds).length ++
      leBytes 2 (laneBytes .origCol 0 ds).length) := by
    have first : (s.buf.write 1 [s.flags]).Holds 0
        ([UInt8.ofNat (ds.length + 1)] ++ [s.flags]) := count.write_append
    have second : ((s.buf.write 1 [s.flags]).write 2
        (leBytes 2 (s.len ds.length .genCol))).Holds 0 _ := first.write_append
    have third : (((s.buf.write 1 [s.flags]).write 2
        (leBytes 2 (s.len ds.length .genCol))).write 4
        (leBytes 2 (s.len ds.length .origLine))).Holds 0 _ := second.write_append
    have fourth : (s.header ds.length).Holds 0 _ := third.write_append
    rw [image.len_eq, image.len_eq, image.len_eq, flags] at fourth
    exact fourth
  exact ((lengths.append (image.header_mask .genLine)).append
    (image.header_mask .origLineEq)).append (image.header_mask .origColEq)

/-- The sections stand where the compaction finds them. -/
theorem Image.ready_runs : (s.header ds.length).Runs
    (32 + (laneBytes .genCol 0 ds).length) (32 + (laneBytes .genCol 0 ds).length)
    (s.runs ds.length) (laterSections ds) := by
  have genCol := image.fits .genCol
  have origLine := image.fits .origLine
  have origCol := image.fits .origCol
  have genLine := image.fits .genLine
  simp only [sections, Lane.width] at genCol origLine origCol genLine
  have source : (s.header ds.length).Holds (srcIdxBase ds.length) (srcIdxSection ds) := by
    rw [srcIdxSection]
    split
    · apply (image.header_mask .srcIdx).append
      rw [maskBytes_length]
      exact image.header_section .srcIdx
    · exact Mem.Holds.nil
  have sourceLength : (if s.flags &&& flagHasSrcIdx ≠ 0 then 8 + s.len ds.length .srcIdx
      else 0) = (srcIdxSection ds).length := by
    rw [flags, image.len_eq, srcIdxSection]
    split
    · rw [List.length_append, maskBytes_length]
      rfl
    · rfl
  refine ⟨?_, ?_, image.len_eq .origLine, image.header_section .origLine,
    ?_, ?_, image.len_eq .origCol, image.header_section .origCol,
    ?_, ?_, image.len_eq .genLine, image.header_section .genLine,
    ?_, ?_, sourceLength, source, trivial⟩ <;>
  simp only [image.len_eq, sections, Lane.base, srcIdxBase, maxVarintLen] <;> omega

end Flushed

/-- Flushing writes the window's layout, whatever the spare capacity held. -/
theorem writeWindow_eq (spare : Mem) {ds : List Delta} (few : ds.length < 64) :
    writeWindow spare ds = windowBytes ds := by
  obtain ⟨image, flags⟩ := image_terminate spare few
  simp only [writeWindow]
  generalize (Emit.loop ds.length 0 ds (Emit.start spare ds.length)).terminate = s at *
  have genColLength : s.len ds.length .genCol = (laneBytes .genCol 0 ds).length :=
    image.len_eq .genCol
  obtain ⟨position, moved, before⟩ := Mem.compact_runs (image.ready_runs flags)
  rw [genColLength]
  have front : ((s.header ds.length).compact (32 + (laneBytes .genCol 0 ds).length)
      (s.runs ds.length)).1.Holds 0 (windowHeader ds ++ laneBytes .genCol 0 ds) := by
    have header := image.holds_header flags
    have genCol := image.header_section .genCol
    apply Mem.Holds.frame
    · apply header.append
      rw [windowHeader_length]
      exact genCol
    · intro i _ inside
      rw [List.length_append, windowHeader_length] at inside
      exact before i (by omega)
  apply Mem.Holds.slice_eq
  · apply front.append
    rw [List.length_append, windowHeader_length, Nat.zero_add]
    exact moved
  · rw [position, windowBytes, List.length_append, List.length_append,
      windowHeader_length]

end Bunx.SourceMap
