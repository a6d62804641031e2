/-
Module: Bunx.Semver.StringReadBack
Purpose: Which texts the strings of a builder read back, whatever the hash collides on.
Trusted boundary: none
Main exports: Reads, BuilderInv, append_spec, appendAll_spec, ReadsBack, Fits,
  reads_back_of_fits, plain_of_reads_back, builder_reads_back
-/
import Bunx.Semver.StringBuilder

namespace Bunx.Semver

open Lib

/-! ### Layout -/

section

variable {stringHash : Bytes → UInt64}

theorem storedAfter_append (before texts rest : List Bytes) :
    storedAfter stringHash before (texts ++ rest) =
      storedAfter stringHash before texts ++ storedAfter stringHash (before ++ texts) rest := by
  induction texts generalizing before with
  | nil => simp [storedAfter]
  | cons text texts ih =>
      simp only [List.cons_append, storedAfter, ih, List.append_assoc,
        List.nil_append]

theorem stored_snoc (before : List Bytes) (text : Bytes) :
    stored stringHash (before ++ [text]) =
      stored stringHash before ++ (if Copied stringHash before text then text else []) := by
  simp [stored, storedAfter_append, storedAfter]

theorem counted_append (texts rest : List Bytes) :
    counted (texts ++ rest) = counted texts + counted rest := by
  simp [counted]

theorem counted_single (text : Bytes) :
    counted [text] = if maxInlineLen < text.length then text.length else 0 := by
  unfold counted
  split <;> simp_all

theorem counted_cons (text : Bytes) (rest : List Bytes) :
    counted (text :: rest) = counted [text] + counted rest :=
  counted_append [text] rest

/-- What is copied has been counted. -/
theorem storedAfter_length_le (before texts : List Bytes) :
    (storedAfter stringHash before texts).length ≤ counted texts := by
  induction texts generalizing before with
  | nil => simp [storedAfter, counted]
  | cons text texts ih =>
      have later := ih (before ++ [text])
      rw [storedAfter, List.length_append, counted_cons, counted_single]
      split
      · rename_i copied
        rw [if_pos copied.1]
        omega
      · simp only [List.length_nil]
        omega

theorem pooled_snoc (before : List Bytes) (text : Bytes) (hash : UInt64) :
    pooled stringHash (before ++ [text]) hash =
      (pooled stringHash before hash).or
        (if maxInlineLen < text.length ∧ stringHash text = hash then some text else none) := by
  unfold pooled
  rw [List.find?_append]
  congr 1
  by_cases hit : maxInlineLen < text.length ∧ stringHash text = hash
  · simp [hit]
  · rw [if_neg hit]
    simp only [List.find?_singleton, Bool.and_eq_true, decide_eq_true_eq, if_neg hit]

end

/-! ### Reading -/

/-- The string reads the text from every buffer that begins with these bytes. -/
def Reads (front : Bytes) (s : SemverString) (text : Bytes) : Prop :=
  ∀ buf, front <+: buf → s.slice buf = text

theorem Reads.extend {front text : Bytes} {s : SemverString} (reads : Reads front s text)
    (more : Bytes) : Reads (front ++ more) s text := by
  intro buf begins
  exact reads buf ((List.prefix_append front more).trans begins)

theorem Slice.range_all {s : Slice} {n : Nat} (length : s.bytes.length = n) :
    s.range 0 n = some s := by
  subst length
  simp [Slice.range]

theorem init_inline (buf in_ : Slice) (short : in_.bytes.length ≤ maxInlineLen)
    (inline : SemverString.canInline in_.bytes = true) :
    SemverString.init buf in_ = SemverString.inlined in_.bytes short := by
  unfold SemverString.init
  rcases (SemverString.canInline_iff in_.bytes).mp inline with small | ⟨eight, low⟩
  · rw [dif_pos (by exact small)]
  · have isLow : ¬in_.bytes.getD 7 0 ≥ 128 := by
      rw [ge_iff_le, UInt8.not_le]
      exact low
    have eightLong : in_.bytes.length = maxInlineLen := eight
    rw [dif_neg (by omega), dif_pos eightLong, if_neg isLow]

theorem init_pointed (buf in_ : Slice)
    (external : SemverString.canInline in_.bytes = false) :
    SemverString.init buf in_ = SemverString.pointed (Pointer.init buf in_) := by
  have notInline := mt (SemverString.canInline_iff in_.bytes).mpr (by simp [external])
  obtain ⟨notShort, notLow⟩ := not_or.mp notInline
  unfold SemverString.init
  rw [dif_neg (by exact notShort)]
  split
  · rename_i eight
    have high : ¬in_.bytes.getD 7 0 < 128 := fun low => notLow ⟨eight, low⟩
    rw [if_pos (by simpa using high)]
  · rfl

theorem canInline_of_long {text : Bytes} (long : maxInlineLen < text.length) :
    SemverString.canInline text = false := by
  unfold maxInlineLen at long
  rw [Bool.eq_false_iff]
  intro inline
  rcases (SemverString.canInline_iff text).mp inline with short | ⟨eight, _⟩ <;> omega

theorem Pointer.init_off_lt (buf in_ : Slice) : (Pointer.init buf in_).off < 2 ^ 32 :=
  Nat.mod_lt _ (by decide)

theorem Pointer.init_len_lt (buf in_ : Slice) : (Pointer.init buf in_).len < 2 ^ 32 :=
  Nat.mod_lt _ (by decide)

/-- A text in the first 4 GiB of the buffer is read where it lies. -/
theorem reads_pointed {front text : Bytes} {addr : Nat} {bytes : Bytes}
    (short : text.length < 2 ^ 31) (near : front.length < 2 ^ 32) :
    Reads (front ++ text)
      (SemverString.pointed (Pointer.init ⟨addr, bytes⟩ ⟨addr + front.length, text⟩)) text := by
  intro buf begins
  have off : (Pointer.init ⟨addr, bytes⟩ ⟨addr + front.length, text⟩).off = front.length := by
    simp only [Pointer.init]
    omega
  have len : (Pointer.init ⟨addr, bytes⟩ ⟨addr + front.length, text⟩).len % 2 ^ 31
      = text.length := by
    simp only [Pointer.init]
    omega
  rw [SemverString.slice_pointed (Pointer.init_off_lt _ _) (Pointer.init_len_lt _ _), off, len]
  obtain ⟨after, rfl⟩ := begins
  rw [if_pos (by simp only [List.length_append]; omega), List.append_assoc, List.drop_left,
    List.take_left]

/-! ### One call -/

/-- The builder's buffer holds these bytes and nothing behind them is used yet. -/
structure BoxHolds (addr total : Nat) (front : Bytes) (b : Builder) : Prop where
  cap : b.cap = total
  len : b.len = front.length
  box : ∃ bytes, b.ptr = some ⟨addr, bytes⟩ ∧ bytes.length = total ∧ front <+: bytes

theorem BoxHolds.allocatedSlice {addr total : Nat} {front : Bytes} {b : Builder}
    (holds : BoxHolds addr total front b) : ∃ allocated, b.allocatedSlice = some allocated := by
  obtain ⟨bytes, isBox, length, _⟩ := holds.box
  unfold Builder.allocatedSlice
  split
  · refine ⟨⟨addr, bytes⟩, ?_⟩
    rw [isBox, holds.cap]
    exact Slice.range_all length
  · exact ⟨_, rfl⟩

/-- A copy goes behind what the buffer holds, and its string reads it. -/
theorem copyIn_spec {addr total : Nat} {front text : Bytes} {b : Builder}
    (holds : BoxHolds addr total front b) (room : front.length + text.length ≤ total)
    (long : maxInlineLen < text.length) (short : text.length < 2 ^ 31)
    (near : front.length < 2 ^ 32) :
    ∃ b' value, b.copyIn text = some (b', value) ∧
      BoxHolds addr total (front ++ text) b' ∧ b'.stringPool = b.stringPool ∧
      Reads (front ++ text) value text := by
  obtain ⟨bytes, isBox, length, after, rfl⟩ := holds.box
  have total_eq : front.length + after.length = total := by
    rw [← length, List.length_append]
  have written : overwrite (front ++ after) front.length text
      = front ++ text ++ after.drop text.length := by
    rw [overwrite, List.take_left, ← List.drop_drop, List.drop_left]
  have writtenLength : (front ++ text ++ after.drop text.length).length = total := by
    simp only [List.length_append, List.length_drop]
    omega
  have dst : Slice.range ⟨addr, front ++ after⟩ front.length total
      = some ⟨addr + front.length, after⟩ := by
    unfold Slice.range
    rw [if_pos ⟨by omega, by rw [length]⟩, List.drop_left, List.take_of_length_le (by omega)]
  have whole : Slice.range ⟨addr, front ++ text ++ after.drop text.length⟩ 0 total
      = some ⟨addr, front ++ text ++ after.drop text.length⟩ := Slice.range_all writtenLength
  have copy : SemverString.init ⟨addr, front ++ text ++ after.drop text.length⟩
      ⟨addr + front.length, text⟩ = SemverString.pointed _ :=
    init_pointed _ _ (canInline_of_long long)
  have final : Slice.range ⟨addr, front ++ text ++ after.drop text.length⟩ front.length
      (front.length + text.length) = some ⟨addr + front.length, text⟩ := by
    unfold Slice.range
    rw [if_pos ⟨by omega, by rw [writtenLength]; omega⟩, List.append_assoc, List.drop_left,
      Nat.add_sub_cancel_left, List.take_left]
  refine ⟨{ b with ptr := some ⟨addr, front ++ text ++ after.drop text.length⟩,
                   len := front.length + text.length },
    SemverString.pointed (Pointer.init ⟨addr, front ++ text ++ after.drop text.length⟩
      ⟨addr + front.length, text⟩), ?_, ?_, rfl, reads_pointed short near⟩
  · have fits : text.length ≤ after.length := by omega
    unfold Builder.copyIn
    simp only [isBox, holds.len, holds.cap, dst, fits, if_true, written, whole, final, copy,
      Option.bind_eq_bind, Option.bind_some, Option.pure_def]
  · constructor
    · exact holds.cap
    · simp
    · exact ⟨_, rfl, writtenLength, List.prefix_append _ _⟩

/-- The builder after it was given these texts: the pool answers each hash with a string
that reads the first long text that has it. -/
structure BuilderInv (stringHash : Bytes → UInt64) (addr total : Nat)
    (before : List Bytes) (b : Builder) : Prop where
  box : BoxHolds addr total (stored stringHash before) b
  pool : ∀ hash, Option.Rel (Reads (stored stringHash before)) (b.stringPool.map hash)
    (pooled stringHash before hash)

/-- Not one of the texts of eight bytes whose last byte carries the tag bit, and short
enough for the length that a pointer keeps. -/
def Plain (text : Bytes) : Prop :=
  (text.length = maxInlineLen → SemverString.canInline text = true) ∧ text.length < 2 ^ 31

instance (text : Bytes) : Decidable (Plain text) := inferInstanceAs (Decidable (_ ∧ _))

section

variable {stringHash : Bytes → UInt64} {addr total : Nat} {before : List Bytes}
  {b : Builder} {slice_ : Slice}

theorem stored_inline (short : slice_.bytes.length ≤ maxInlineLen) :
    stored stringHash (before ++ [slice_.bytes]) = stored stringHash before := by
  rw [stored_snoc, if_neg (fun copied => absurd copied.1 (Nat.not_lt.mpr short)),
    List.append_nil]

theorem pooled_inline (short : slice_.bytes.length ≤ maxInlineLen) (hash : UInt64) :
    pooled stringHash (before ++ [slice_.bytes]) hash = pooled stringHash before hash := by
  rw [pooled_snoc, if_neg (fun hit => absurd hit.1 (Nat.not_lt.mpr short)), Option.or_none]

theorem canInline_of_plain {text : Bytes} (plain : Plain text)
    (short : text.length ≤ maxInlineLen) : SemverString.canInline text = true := by
  by_cases eight : text.length = maxInlineLen
  · exact plain.1 eight
  · exact (SemverString.canInline_iff text).mpr (.inl (lt_of_le_of_ne short eight))

/-- The pool keeps what it has where the buffer grows. -/
theorem pool_extend {pool : StringPool} {front : Bytes} {answers : UInt64 → Option Bytes}
    (kept : ∀ hash, Option.Rel (Reads front) (pool.map hash) (answers hash)) (more : Bytes) :
    ∀ hash, Option.Rel (Reads (front ++ more)) (pool.map hash) (answers hash) := by
  intro hash
  have answer := kept hash
  generalize pool.map hash = value, answers hash = first at answer ⊢
  cases answer with
  | some reads => exact .some (reads.extend more)
  | none => exact .none

/-- A text that is not copied leaves the pool's answers as they are. -/
theorem pooled_hit (text : Bytes)
    (hit : pooled stringHash before (stringHash text) ≠ none) (hash : UInt64) :
    pooled stringHash (before ++ [text]) hash = pooled stringHash before hash := by
  rw [pooled_snoc]
  split
  · rename_i isHash
    obtain ⟨_, rfl⟩ := isHash
    obtain ⟨first, isFirst⟩ := Option.ne_none_iff_exists'.mp hit
    rw [isFirst]
    rfl
  · rw [Option.or_none]

/-- One call of `append`. -/
theorem append_spec (inv : BuilderInv stringHash addr total before b)
    (noNul : 0 ∉ slice_.bytes) (plain : Plain slice_.bytes)
    (room : (stored stringHash before).length + counted [slice_.bytes] ≤ total)
    (near : Copied stringHash before slice_.bytes →
      (stored stringHash before).length < 2 ^ 32) :
    ∃ b' value, b.append stringHash slice_ = some (b', value) ∧
      BuilderInv stringHash addr total (before ++ [slice_.bytes]) b' ∧
      Reads (stored stringHash (before ++ [slice_.bytes])) value slice_.bytes := by
  unfold Builder.append Builder.appendWithHash
  by_cases short : slice_.bytes.length ≤ maxInlineLen
  · obtain ⟨allocated, isAllocated⟩ := inv.box.allocatedSlice
    have inline := canInline_of_plain plain short
    refine ⟨b, SemverString.inlined slice_.bytes short, ?_, ?_, ?_⟩
    · rw [if_pos short, isAllocated]
      simp [init_inline allocated slice_ short inline]
    · constructor
      · rw [stored_inline short]
        exact inv.box
      · intro hash
        rw [stored_inline short, pooled_inline short]
        exact inv.pool hash
    · intro buf _
      exact SemverString.slice_inlined short inline noNul buf
  · have long : maxInlineLen < slice_.bytes.length := Nat.lt_of_not_le short
    rw [counted_single, if_pos long] at room
    rw [if_neg short]
    have answer := inv.pool (stringHash slice_.bytes)
    cases isValue : b.stringPool.map (stringHash slice_.bytes) with
    | none =>
        -- the hash is new: the text is copied and its string put into the pool
        have fresh : pooled stringHash before (stringHash slice_.bytes) = none := by
          rw [isValue] at answer
          cases isPooled : pooled stringHash before (stringHash slice_.bytes) with
          | none => rfl
          | some first =>
              rw [isPooled] at answer
              cases answer
        have copied : Copied stringHash before slice_.bytes := ⟨long, by simp [fresh]⟩
        obtain ⟨b', value, isCopy, box, samePool, reads⟩ :=
          copyIn_spec inv.box room long plain.2 (near copied)
        have storedNow : stored stringHash (before ++ [slice_.bytes])
            = stored stringHash before ++ slice_.bytes := by
          rw [stored_snoc, if_pos copied]
        refine ⟨{ b' with stringPool := b'.stringPool.put (stringHash slice_.bytes) value },
          value, by simp [isCopy], ?_, storedNow ▸ reads⟩
        constructor
        · rw [storedNow]
          exact ⟨box.cap, box.len, box.box⟩
        · intro hash
          rw [storedNow, pooled_snoc, samePool]
          dsimp only [StringPool.put]
          by_cases same : hash = stringHash slice_.bytes
          · subst same
            rw [if_pos rfl, fresh, if_pos ⟨long, rfl⟩]
            exact .some reads
          · rw [if_neg same, if_neg (fun hit => same hit.2.symm), Option.or_none]
            exact pool_extend inv.pool slice_.bytes hash
    | some value =>
        obtain ⟨first, isFirst, readsFirst⟩ : ∃ first,
            pooled stringHash before (stringHash slice_.bytes) = some first ∧
              Reads (stored stringHash before) value first := by
          rw [isValue] at answer
          cases isPooled : pooled stringHash before (stringHash slice_.bytes) with
          | none =>
              rw [isPooled] at answer
              cases answer
          | some first =>
              rw [isPooled] at answer
              cases answer with
              | some reads => exact ⟨first, rfl, reads⟩
        have samePooled := pooled_hit slice_.bytes (by rw [isFirst]; simp)
        obtain ⟨bytes, isBox, length, begins⟩ := inv.box.box
        have allocated : Slice.range ⟨addr, bytes⟩ 0 b.cap = some ⟨addr, bytes⟩ := by
          rw [inv.box.cap]
          exact Slice.range_all length
        have read : value.slice bytes = first := readsFirst bytes begins
        by_cases same : first = slice_.bytes
        · -- the pool has this very text
          have notCopied : ¬Copied stringHash before slice_.bytes := by
            intro copied
            exact copied.2 (by rw [isFirst, same])
          have storedNow : stored stringHash (before ++ [slice_.bytes])
              = stored stringHash before := by
            rw [stored_snoc, if_neg notCopied, List.append_nil]
          refine ⟨b, value, by simp [isBox, allocated, read, same], ?_, ?_⟩
          · constructor
            · rw [storedNow]
              exact inv.box
            · intro hash
              rw [storedNow, samePooled]
              exact inv.pool hash
          · rw [storedNow, ← same]
            exact readsFirst
        · -- another text has the hash: a copy that the pool does not learn
          have copied : Copied stringHash before slice_.bytes := by
            refine ⟨long, ?_⟩
            rw [isFirst]
            simpa using same
          obtain ⟨b', copy, isCopy, box, samePool, reads⟩ :=
            copyIn_spec inv.box room long plain.2 (near copied)
          have storedNow : stored stringHash (before ++ [slice_.bytes])
              = stored stringHash before ++ slice_.bytes := by
            rw [stored_snoc, if_pos copied]
          refine ⟨b', copy, ?_, ?_, storedNow ▸ reads⟩
          · simp [isBox, allocated, read, same, Builder.appendWithoutPool, short, isCopy]
          · constructor
            · rw [storedNow]
              exact box
            · intro hash
              rw [storedNow, samePooled, samePool]
              exact pool_extend inv.pool slice_.bytes hash

/-- What has to fit where the texts behind some others are appended. -/
structure Room (stringHash : Bytes → UInt64) (total : Nat) (before rest : List Bytes) :
    Prop where
  plain : ∀ text ∈ rest, Plain text
  near : ∀ ahead text after, rest = ahead ++ text :: after →
    Copied stringHash (before ++ ahead) text →
      (stored stringHash (before ++ ahead)).length < 2 ^ 32
  total : (stored stringHash before).length + counted rest ≤ total

theorem Room.tail {text : Bytes} {rest : List Bytes}
    (room : Room stringHash total before (text :: rest)) :
    Room stringHash total (before ++ [text]) rest := by
  constructor
  · intro other member
    exact room.plain other (List.mem_cons_of_mem text member)
  · intro ahead other after same copied
    have further := room.near (text :: ahead) other after (by rw [same]; rfl)
    rw [← List.append_cons] at copied ⊢
    exact further copied
  · have enough := room.total
    rw [counted_cons, counted_single] at enough
    rw [stored_snoc, List.length_append]
    by_cases copied : Copied stringHash before text
    · rw [if_pos copied.1] at enough
      rw [if_pos copied]
      omega
    · rw [if_neg copied, List.length_nil]
      omega

/-- All calls of `append`: every string reads its text from the buffer at the end. -/
theorem appendAll_spec {slices : List Slice} (inv : BuilderInv stringHash addr total before b)
    (noNul : ∀ s ∈ slices, 0 ∉ s.bytes)
    (room : Room stringHash total before (slices.map Slice.bytes)) :
    ∃ b' values, b.appendAll stringHash slices = some (b', values) ∧
      BuilderInv stringHash addr total (before ++ slices.map Slice.bytes) b' ∧
      List.Forall₂ (Reads (stored stringHash (before ++ slices.map Slice.bytes))) values
        (slices.map Slice.bytes) := by
  induction slices generalizing b before with
  | nil =>
      refine ⟨b, [], rfl, ?_, .nil⟩
      rw [List.map_nil, List.append_nil]
      exact inv
  | cons slice_ slices ih =>
      have nearFirst := room.near [] slice_.bytes (slices.map Slice.bytes) rfl
      rw [List.append_nil] at nearFirst
      have enough := room.total
      rw [List.map_cons, counted_cons] at enough
      obtain ⟨b₁, value, isAppend, inv₁, reads⟩ := append_spec inv
        (noNul slice_ List.mem_cons_self) (room.plain _ List.mem_cons_self)
        (by omega) nearFirst
      obtain ⟨b₂, values, isRest, inv₂, later⟩ := ih inv₁
        (fun s member => noNul s (List.mem_cons_of_mem slice_ member)) room.tail
      rw [List.append_assoc, List.singleton_append] at inv₂ later
      have longer : stored stringHash (before ++ slice_.bytes :: slices.map Slice.bytes)
          = stored stringHash (before ++ [slice_.bytes]) ++
            storedAfter stringHash (before ++ [slice_.bytes]) (slices.map Slice.bytes) := by
        rw [List.append_cons]
        exact storedAfter_append [] _ _
      refine ⟨b₂, value :: values, ?_, inv₂, .cons ?_ later⟩
      · simp [Builder.appendAll, isAppend, isRest]
      · rw [List.map_cons, longer]
        exact reads.extend _

end

/-! ### Counting -/

theorem foldl_count (stringHash : Bytes → UInt64) (texts : List Bytes) (cap : Nat)
    (bounded : cap < 2 ^ 64) :
    texts.foldl (Builder.count stringHash) { cap := cap } =
      { cap := (cap + counted texts) % 2 ^ 64 } := by
  induction texts generalizing cap with
  | nil =>
      rw [List.foldl_nil, counted, List.map_nil, List.filter_nil, List.sum_nil, Nat.add_zero,
        Nat.mod_eq_of_lt bounded]
  | cons text texts ih =>
      rw [List.foldl_cons, counted_cons, counted_single]
      by_cases short : text.length ≤ maxInlineLen
      · have same : Builder.count stringHash { cap := cap } text = { cap := cap } := by
          simp [Builder.count, Builder.countWithHash, short]
        rw [same, ih cap bounded, if_neg (Nat.not_lt.mpr short), Nat.zero_add]
      · have more : Builder.count stringHash { cap := cap } text
            = { cap := (cap + text.length) % 2 ^ 64 } := by
          simp [Builder.count, Builder.countWithHash, short, StringPool.contains]
        rw [more, ih _ (Nat.mod_lt _ (by decide)),
          if_pos (Nat.lt_of_not_le short), Nat.mod_add_mod, Nat.add_assoc]

/-! ### Whole runs -/

/-- The box and the slices lie in the address space, no slice in the box. -/
structure Placed (addr cap : Nat) (slices : List Slice) : Prop where
  box : addr + cap ≤ 2 ^ 64
  inSpace : ∀ s ∈ slices, s.addr + s.bytes.length ≤ 2 ^ 64
  apart : ∀ s ∈ slices, s.addr + s.bytes.length ≤ addr ∨ addr + cap ≤ s.addr

/-- Wherever the texts and the box lie, the run ends and each string reads its text from
the final buffer. -/
def ReadsBack (stringHash : Bytes → UInt64) (texts : List Bytes) : Prop :=
  ∀ addr slices, slices.map Slice.bytes = texts → Placed addr (counted texts) slices →
    ∃ buf values, Builder.intern stringHash addr slices = some (buf, values) ∧
      values.map (·.slice buf) = texts

/-- The texts are plain, `vec!` accepts what they ask for, and each one that is copied
begins in the first 4 GiB. -/
structure Fits (stringHash : Bytes → UInt64) (texts : List Bytes) : Prop where
  plain : ∀ text ∈ texts, Plain text
  cap : counted texts < 2 ^ 63
  near : ∀ before text after, texts = before ++ text :: after →
    Copied stringHash before text → (stored stringHash before).length < 2 ^ 32

theorem reads_back_of_fits {stringHash : Bytes → UInt64} {texts : List Bytes}
    (noNul : ∀ text ∈ texts, 0 ∉ text) (fits : Fits stringHash texts) :
    ReadsBack stringHash texts := by
  intro addr slices sameTexts _
  subst sameTexts
  have counting := foldl_count stringHash (slices.map Slice.bytes) 0 (by decide)
  have cap : (0 + counted (slices.map Slice.bytes)) % 2 ^ 64
      = counted (slices.map Slice.bytes) := by
    have small := fits.cap
    omega
  rw [cap] at counting
  have start : BuilderInv stringHash addr (counted (slices.map Slice.bytes)) []
      { cap := counted (slices.map Slice.bytes)
        ptr := some ⟨addr, List.replicate (counted (slices.map Slice.bytes)) 0⟩ } := by
    constructor
    · exact ⟨rfl, rfl, _, rfl, List.length_replicate, List.nil_prefix⟩
    · exact fun hash => .none
  have room : Room stringHash (counted (slices.map Slice.bytes)) []
      (slices.map Slice.bytes) := by
    constructor
    · exact fits.plain
    · exact fits.near
    · simp [stored, storedAfter]
  obtain ⟨b, values, isRun, inv, reads⟩ := appendAll_spec start
    (fun s member => noNul _ (List.mem_map_of_mem member)) room
  obtain ⟨bytes, isBox, _, begins⟩ := inv.box.box
  refine ⟨bytes, values, ?_, ?_⟩
  · have isAllocate : Builder.allocate { cap := counted (slices.map Slice.bytes) } addr
        = some _ := if_pos fits.cap
    simp [Builder.intern, counting, isAllocate, isRun, isBox]
  · rw [← List.forall₂_eq_eq_eq, List.forall₂_map_left_iff]
    exact reads.imp fun s text readsText => readsText bytes begins

/-! ### What no run can read back -/

/-- The builder's buffer, whatever the texts are. -/
structure Shaped (addr total : Nat) (b : Builder) : Prop where
  cap : b.cap = total
  box : ∃ bytes, b.ptr = some ⟨addr, bytes⟩ ∧ bytes.length = total

/-- A string for a slice of eight bytes that carries the tag bit, behind the box. -/
def Lost (addr total : Nat) (slice_ : Slice) (value : SemverString) : Prop :=
  slice_.bytes.length = maxInlineLen → SemverString.canInline slice_.bytes = false →
    slice_.addr = addr + total → total < 2 ^ 32 →
      ∀ buf, buf.length = total → value.slice buf = []

section

variable {stringHash : Bytes → UInt64} {addr total : Nat} {b b' : Builder}
  {slice_ : Slice} {value : SemverString}

theorem Slice.range_eq_some {s t : Slice} {start stop : Nat}
    (isRange : s.range start stop = some t) :
    start ≤ stop ∧ stop ≤ s.bytes.length ∧ t.addr = s.addr + start ∧
      t.bytes.length = stop - start := by
  unfold Slice.range at isRange
  split at isRange
  · rename_i inside
    cases isRange
    refine ⟨inside.1, inside.2, rfl, ?_⟩
    simp only [List.length_take, List.length_drop]
    omega
  · cases isRange

theorem copyIn_shaped {text : Bytes} (shaped : Shaped addr total b)
    (isCopy : b.copyIn text = some (b', value)) : Shaped addr total b' := by
  obtain ⟨bytes, isBox, length⟩ := shaped.box
  simp only [Builder.copyIn, isBox, Option.bind_eq_bind, Option.bind_some,
    Option.bind_eq_some_iff, Option.ite_none_right_eq_some, Option.pure_def,
    Option.some.injEq, Prod.mk.injEq] at isCopy
  obtain ⟨dst, isDst, fits, allocated, isAllocated, final, isFinal, rfl, rfl⟩ := isCopy
  obtain ⟨ordered, inside, _, dstLength⟩ := Slice.range_eq_some isDst
  refine ⟨shaped.cap, ⟨_, rfl, ?_⟩⟩
  have room : b.cap ≤ bytes.length := inside
  rw [overwrite_length (by omega), length]

/-- The string of a slice of eight bytes that is a pointer points to where the caller's
bytes lie. -/
theorem lost_init {allocated : Slice} (base : allocated.addr = addr ∨ total = 0) :
    Lost addr total slice_ (SemverString.init allocated slice_) := by
  intro isEight external place near buf length
  have len : (Pointer.init allocated slice_).len = 8 := by
    simp [Pointer.init, isEight, maxInlineLen]
  rw [init_pointed _ _ external, SemverString.slice_pointed (Pointer.init_off_lt _ _)
    (Pointer.init_len_lt _ _), len, if_neg]
  rw [length]
  rcases base with same | empty
  · have off : (Pointer.init allocated slice_).off = total := by
      simp only [Pointer.init]
      omega
    omega
  · omega

theorem append_shaped (shaped : Shaped addr total b)
    (isAppend : b.append stringHash slice_ = some (b', value)) :
    Shaped addr total b' ∧ Lost addr total slice_ value := by
  unfold Builder.append Builder.appendWithHash at isAppend
  obtain ⟨bytes, isBox, length⟩ := shaped.box
  split at isAppend
  · obtain ⟨allocated, isAllocated, same⟩ := Option.bind_eq_some_iff.mp isAppend
    cases same
    refine ⟨shaped, lost_init ?_⟩
    unfold Builder.allocatedSlice at isAllocated
    split at isAllocated
    · rw [isBox] at isAllocated
      exact .inl (Slice.range_eq_some isAllocated).2.2.1
    · rename_i empty
      rw [shaped.cap] at empty
      exact .inr (Nat.eq_zero_of_not_pos empty)
  · rename_i notShort
    have notLost (v : SemverString) : Lost addr total slice_ v := fun isEight =>
      absurd (Nat.le_of_eq isEight) notShort
    split at isAppend
    · obtain ⟨ptr, isPtr, isAppend⟩ := Option.bind_eq_some_iff.mp isAppend
      obtain ⟨allocated, isAllocated, isAppend⟩ := Option.bind_eq_some_iff.mp isAppend
      split at isAppend
      · unfold Builder.appendWithoutPool at isAppend
        rw [if_neg notShort] at isAppend
        exact ⟨copyIn_shaped shaped isAppend, notLost _⟩
      · cases isAppend
        exact ⟨shaped, notLost _⟩
    · obtain ⟨⟨copied, fresh⟩, isCopy, same⟩ := Option.bind_eq_some_iff.mp isAppend
      cases same
      have after := copyIn_shaped shaped isCopy
      exact ⟨⟨after.cap, after.box⟩, notLost _⟩

theorem appendAll_shaped {slices : List Slice} {values : List SemverString}
    (shaped : Shaped addr total b)
    (isRun : b.appendAll stringHash slices = some (b', values)) :
    Shaped addr total b' ∧ List.Forall₂ (Lost addr total) slices values := by
  induction slices generalizing b values with
  | nil =>
      cases isRun
      exact ⟨shaped, .nil⟩
  | cons slice_ slices ih =>
      obtain ⟨⟨b₁, value⟩, isAppend, isRest⟩ := Option.bind_eq_some_iff.mp isRun
      obtain ⟨⟨b₂, later⟩, isLater, same⟩ := Option.bind_eq_some_iff.mp isRest
      cases same
      obtain ⟨shaped₁, shape⟩ := append_shaped shaped isAppend
      obtain ⟨shaped₂, shapes⟩ := ih shaped₁ isLater
      exact ⟨shaped₂, .cons shape shapes⟩

end

theorem counted_of_mem {texts : List Bytes} {text : Bytes} (member : text ∈ texts)
    (long : maxInlineLen < text.length) : text.length ≤ counted texts := by
  obtain ⟨before, after, rfl⟩ := List.append_of_mem member
  rw [counted_append, counted_cons, counted_single, if_pos long]
  omega

/-- Each slice has its string among the values of a run. -/
theorem value_of_slice {addr total : Nat} {slices : List Slice} {values : List SemverString}
    {buf : Bytes} (shapes : List.Forall₂ (Lost addr total) slices values)
    (same : values.map (·.slice buf) = slices.map Slice.bytes) :
    ∀ s ∈ slices, ∃ value, Lost addr total s value ∧ value.slice buf = s.bytes := by
  induction shapes with
  | nil =>
      intro s member
      cases member
  | cons shape _ ih =>
      obtain ⟨first, rest⟩ := List.cons_eq_cons.mp same
      intro s member
      rcases List.mem_cons.mp member with rfl | later
      · exact ⟨_, shape, first⟩
      · exact ih rest s later

/-- The caller's slices all behind the box. -/
theorem placed_behind {texts : List Bytes} (near : counted texts < 2 ^ 32) :
    Placed 4096 (counted texts) (texts.map (Slice.mk (4096 + counted texts))) := by
  constructor
  · omega
  · intro s member
    obtain ⟨text, isText, rfl⟩ := List.mem_map.mp member
    have bound : text.length ≤ 2 ^ 32 := by
      by_cases long : maxInlineLen < text.length
      · have counting := counted_of_mem isText long
        omega
      · unfold maxInlineLen at long
        omega
    dsimp only
    omega
  · intro s member
    obtain ⟨text, _, rfl⟩ := List.mem_map.mp member
    exact .inr (Nat.le_refl _)

/-- Texts that read back wherever they lie are plain. -/
theorem plain_of_reads_back {stringHash : Bytes → UInt64} {texts : List Bytes}
    (near : counted texts < 2 ^ 32) (readsBack : ReadsBack stringHash texts) :
    ∀ text ∈ texts, Plain text := by
  have texts_eq : (texts.map (Slice.mk (4096 + counted texts))).map Slice.bytes = texts := by
    rw [List.map_map]
    exact List.map_id texts
  obtain ⟨buf, values, isIntern, same⟩ :=
    readsBack 4096 _ texts_eq (placed_behind near)
  obtain ⟨b, isAllocate, isIntern⟩ := Option.bind_eq_some_iff.mp isIntern
  obtain ⟨⟨b', values'⟩, isRun, isIntern⟩ := Option.bind_eq_some_iff.mp isIntern
  obtain ⟨ptr, isPtr, isIntern⟩ := Option.bind_eq_some_iff.mp isIntern
  cases isIntern
  rw [texts_eq, foldl_count stringHash texts 0 (by decide), Nat.zero_add,
    Nat.mod_eq_of_lt (by omega)] at isAllocate
  unfold Builder.allocate at isAllocate
  rw [if_pos (by dsimp only; omega)] at isAllocate
  cases isAllocate
  have shaped : Shaped 4096 (counted texts)
      { cap := counted texts, ptr := some ⟨4096, List.replicate (counted texts) 0⟩ } := by
    constructor
    · rfl
    · exact ⟨_, rfl, List.length_replicate⟩
  obtain ⟨after, shapes⟩ := appendAll_shaped shaped isRun
  obtain ⟨bytes, isBox, length⟩ := after.box
  cases isPtr.symm.trans isBox
  intro text member
  obtain ⟨value, lost, reads⟩ := value_of_slice shapes (same.trans texts_eq.symm)
    ⟨4096 + counted texts, text⟩ (List.mem_map_of_mem member)
  dsimp only at reads
  constructor
  · intro eight
    by_contra external
    have nothing := lost eight (Bool.eq_false_iff.mpr external) rfl near bytes length
    rw [reads] at nothing
    rw [nothing] at eight
    cases eight
  · rw [← reads]
    exact value.slice_length_lt bytes

/-- The texts of a builder read back where they fit; and where the counted bytes stay below
4 GiB, only a text that is not plain fails to. -/
theorem builder_reads_back (stringHash : Bytes → UInt64) (texts : List Bytes)
    (noNul : ∀ text ∈ texts, 0 ∉ text) :
    (Fits stringHash texts → ReadsBack stringHash texts) ∧
      (counted texts < 2 ^ 32 →
        (ReadsBack stringHash texts ↔ ∀ text ∈ texts, Plain text)) := by
  refine ⟨reads_back_of_fits noNul, fun near => ⟨plain_of_reads_back near, ?_⟩⟩
  intro plain
  apply reads_back_of_fits noNul
  refine ⟨plain, by omega, ?_⟩
  intro before text after same _
  have front : (storedAfter stringHash [] before).length ≤ counted before :=
    storedAfter_length_le [] before
  rw [same, counted_append] at near
  unfold stored
  omega

/-- Three long texts, two of them equal, under a hash that collides on all. -/
theorem builder_reads_back_sample :
    ReadsBack (fun _ => 7)
      [List.replicate 9 97, [104, 105], List.replicate 10 98, List.replicate 9 97] :=
  ((builder_reads_back (fun _ => 7)
    [List.replicate 9 97, [104, 105], List.replicate 10 98, List.replicate 9 97]
    (by decide)).2 (by decide)).mpr (by decide)

/-- `abcdefé` in UTF-8: eight bytes, the last of them `0xa9`. -/
theorem eight_bytes_lost :
    ¬ ∀ (stringHash : Bytes → UInt64) (texts : List Bytes),
      (∀ text ∈ texts, 0 ∉ text) → ReadsBack stringHash texts := by
  intro all
  have lost := all (fun _ => 0) [[97, 98, 99, 100, 101, 102, 0xc3, 0xa9]] (by decide)
  obtain ⟨buf, values, isIntern, same⟩ :=
    lost 4096 [⟨8192, [97, 98, 99, 100, 101, 102, 0xc3, 0xa9]⟩] rfl
      ⟨by decide, by decide, by decide⟩
  have run : Builder.intern (fun _ => 0) 4096 [⟨8192, [97, 98, 99, 100, 101, 102, 0xc3, 0xa9]⟩]
      = some ([], [⟨[255, 31, 0, 0, 8, 0, 0, 128], rfl⟩]) := by
    decide +kernel
  rw [run] at isIntern
  cases isIntern
  revert same
  decide +kernel

end Bunx.Semver
