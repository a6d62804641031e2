/-
Module: Bunx.WindowsShim.ShimRoundTrip
Purpose: Which shims are read back as they were written.
Trusted boundary: none
Main exports: RoundTrips, encodeInto_shebang, encodeInto_plain, loose_decode_encode_into,
  quote_read_with_path
-/
import Bunx.WindowsShim.BinLinkingShim
import Mathlib.Logic.Basic

namespace Bunx.WindowsShim

open Lib

/-! ### Bytes of units -/

theorem bytesOf_append (front behind : Units) :
    bytesOf (front ++ behind) = bytesOf front ++ bytesOf behind :=
  List.flatMap_append

theorem bytesOf_singleton (unit : UInt16) : bytesOf [unit] = leBytes 2 unit.toNat :=
  List.append_nil _

theorem length_bytesOf (units : Units) : (bytesOf units).length = units.length * 2 := by
  induction units with
  | nil => rfl
  | cons unit units ih =>
      have cons : bytesOf (unit :: units) = leBytes 2 unit.toNat ++ bytesOf units := rfl
      rw [cons, List.length_append, leBytes_length, ih, List.length_cons]
      omega

theorem unit_of_leValue (unit : UInt16) : UInt16.ofNat (leValue (leBytes 2 unit.toNat)) = unit := by
  rw [leValue_leBytes unit.toNat_lt, UInt16.ofNat_toNat]

theorem unitsOf_bytesOf (units : Units) : unitsOf (bytesOf units) = units := by
  induction units with
  | nil => rfl
  | cons unit units ih =>
      have cons : unitsOf (bytesOf (unit :: units)) =
          UInt16.ofNat (leValue (leBytes 2 unit.toNat)) :: unitsOf (bytesOf units) := rfl
      rw [cons, unit_of_leValue, ih]

theorem bytesOf_u32 {v : Nat} (small : v < 2 ^ 32) : bytesOf (BinLinkingShim.u32Units v) =
    leBytes 4 v := by
  have low : (UInt16.ofNat v).toNat = v % 256 ^ 2 := UInt16.toNat_ofNat'
  have high : (UInt16.ofNat (v / 65536)).toNat = v / 256 ^ 2 := by
    rw [UInt16.toNat_ofNat']
    omega
  have pair : bytesOf (BinLinkingShim.u32Units v) =
      leBytes 2 (UInt16.ofNat v).toNat ++ (leBytes 2 (UInt16.ofNat (v / 65536)).toNat ++ []) := rfl
  rw [pair, low, high, leBytes_mod, List.append_nil, leBytes_add 2 2]

/-! ### Writing -/

namespace BinLinkingShim

variable {simdutf : Simdutf} {binPath : Units} {shebang : Shebang}

theorem put_fits {units written rest : Units} (fits : units.length ≤ rest.length) :
    put units (written, rest) = some (written ++ units, rest.drop units.length) :=
  if_pos fits

/-- What a buffer of the right length holds in the end. -/
def shebangUnits (binPath window : Units) (shebang : Shebang) (flags : Flags) : Units :=
  binPath ++ [doubleQuote, 0] ++ window ++ [space] ++ u32Units (binPath.length * 2) ++
    u32Units (shebang.utf16Len * 2 + 2).toNat ++ [flags.bits]

theorem length_shebangUnits (binPath window : Units) (shebang : Shebang) (flags : Flags) :
    (shebangUnits binPath window shebang flags).length =
      binPath.length + window.length + 8 := by
  simp only [shebangUnits, u32Units, List.length_append, List.length_cons, List.length_nil]
  omega

theorem convertedUnits_length {bufLen : Nat} {input : Bytes} {units : Units}
    (isConverted : convertedUnits simdutf bufLen input = some units) : units.length ≤ bufLen := by
  unfold convertedUnits at isConverted
  split at isConverted
  · cases isConverted
    exact Nat.zero_le _
  · split at isConverted
    · cases isConverted
    · dsimp only at isConverted
      split at isConverted
      · next fits =>
        cases isConverted
        exact fits
      · cases isConverted

variable {rest : Units}

/-- Where the launcher fits, it is written with its lengths. -/
theorem putShebang_some (written : Units) {units : Units}
    (isConverted : convertedUnits simdutf shebang.utf16Len.toNat shebang.launcher = some units)
    (small : binPath.length * 2 < 2 ^ 32) (room : shebang.utf16Len.toNat + 5 ≤ rest.length) :
    ∃ window, window.length = shebang.utf16Len.toNat ∧
      putShebang simdutf binPath shebang (written, rest) =
        some (written ++ window ++ [space] ++ u32Units (binPath.length * 2) ++
          u32Units (shebang.utf16Len * 2 + 2).toNat,
          rest.drop (shebang.utf16Len.toNat + 5)) := by
  have short := convertedUnits_length isConverted
  have windowLength : (units ++ (rest.take shebang.utf16Len.toNat).drop units.length).length =
      shebang.utf16Len.toNat := by
    rw [List.length_append, List.length_drop, List.length_take]
    omega
  refine ⟨_, windowLength, ?_⟩
  have fits : shebang.utf16Len.toNat ≤ rest.length := by omega
  have lengths (v : Nat) : (u32Units v).length = 2 := rfl
  unfold putShebang
  dsimp only
  rw [if_pos fits, isConverted]
  show (put _ _).bind _ = _
  rw [put_fits (by rw [windowLength]; exact fits)]
  show (put _ _).bind _ = _
  rw [put_fits (by rw [List.length_drop, windowLength, List.length_singleton]; omega)]
  show (if _ then _ else _) = _
  rw [if_pos small]
  show (put _ _).bind _ = _
  rw [put_fits (by
    simp only [List.length_drop, windowLength, List.length_singleton, lengths]
    omega)]
  show put _ _ = _
  rw [put_fits (by
    simp only [List.length_drop, windowLength, List.length_singleton, lengths]
    omega)]
  simp only [List.drop_drop, windowLength, List.length_singleton, lengths, Nat.add_assoc]

theorem putShebang_none {written : Units}
    (panics : convertedUnits simdutf shebang.utf16Len.toNat shebang.launcher = none ∨
      ¬ binPath.length * 2 < 2 ^ 32) :
    putShebang simdutf binPath shebang (written, rest) = none := by
  unfold putShebang
  dsimp only
  split
  · cases isConverted : convertedUnits simdutf shebang.utf16Len.toNat shebang.launcher with
    | none => rfl
    | some units =>
        rcases panics with isNone | large
        · rw [isConverted] at isNone
          cases isNone
        · show (put _ _).bind _ = _
          cases put _ (written, rest) with
          | none => rfl
          | some buf =>
              show (put _ _).bind _ = _
              cases put [space] buf with
              | none => rfl
              | some buf => exact if_neg large
  · rfl

/-- Where the launcher fits, all is written. -/
theorem encodeInto_shebang (shim : BinLinkingShim) (buffer : shim.Buffer) {units : Units}
    (isShebang : shim.shebang = some shebang)
    (isConverted : convertedUnits simdutf shebang.utf16Len.toNat shebang.launcher = some units)
    (small : shim.binPath.length * 2 < 2 ^ 32) :
    ∃ window, encodeInto simdutf shim buffer =
      some (shebangUnits shim.binPath window shebang shim.flags) := by
  have exact := buffer.exact
  have isLength : buffer.units.length =
      shim.binPath.length + 2 + (shebang.utf16Len.toNat + 5) + 1 := by
    simp only [encodedLength, isShebang, Shebang.encodedLength] at exact
    omega
  have room : shebang.utf16Len.toNat + 5 ≤
      (buffer.units.drop (shim.binPath.length + 2)).length := by
    rw [List.length_drop]
    omega
  obtain ⟨window, -, isPut⟩ :=
    putShebang_some (shim.binPath ++ [doubleQuote, 0]) isConverted small room
  refine ⟨window, ?_⟩
  unfold encodeInto
  rw [put_fits (by omega)]
  show (put _ _).bind _ = _
  rw [put_fits (by rw [List.length_drop]; simp only [List.length_cons, List.length_nil]; omega)]
  rw [isShebang]
  show (putShebang _ _ _ _).bind _ = _
  rw [List.drop_drop, List.nil_append]
  rw [show shim.binPath.length + [doubleQuote, 0].length = shim.binPath.length + 2 from rfl, isPut]
  show (put _ _).bind _ = _
  rw [put_fits (by simp only [List.length_drop, List.length_singleton]; omega)]
  have atEnd : (List.drop [shim.flags.bits].length
      (List.drop (shebang.utf16Len.toNat + 5) (buffer.units.drop (shim.binPath.length + 2)))) = [] := by
    apply List.drop_eq_nil_of_le
    simp only [List.length_drop, List.length_singleton]
    omega
  show some (_ ++ _) = _
  rw [atEnd, List.append_nil]
  rfl

theorem encodeInto_none (shim : BinLinkingShim) (buffer : shim.Buffer)
    (isShebang : shim.shebang = some shebang)
    (panics : convertedUnits simdutf shebang.utf16Len.toNat shebang.launcher = none ∨
      ¬ shim.binPath.length * 2 < 2 ^ 32) :
    encodeInto simdutf shim buffer = none := by
  unfold encodeInto
  cases put shim.binPath ([], buffer.units) with
  | none => rfl
  | some buf =>
      show (put _ _).bind _ = _
      cases put [doubleQuote, 0] buf with
      | none => rfl
      | some buf =>
          obtain ⟨written, rest⟩ := buf
          rw [isShebang]
          show (putShebang simdutf shim.binPath shebang (written, rest)).bind _ = _
          rw [putShebang_none panics]
          rfl

theorem encodeInto_plain (shim : BinLinkingShim) (buffer : shim.Buffer)
    (noShebang : shim.shebang = none) :
    encodeInto simdutf shim buffer =
      some (shim.binPath ++ [doubleQuote, 0] ++ [shim.flags.bits]) := by
  have exact := buffer.exact
  have isLength : buffer.units.length = shim.binPath.length + 3 := by
    simp only [encodedLength, noShebang] at exact
    omega
  unfold encodeInto
  rw [put_fits (by omega)]
  show (put _ _).bind _ = _
  rw [put_fits (by rw [List.length_drop]; simp only [List.length_cons, List.length_nil]; omega)]
  rw [noShebang]
  show (put _ _).bind _ = _
  rw [put_fits (by
    simp only [List.length_drop, List.length_cons, List.length_nil]
    omega)]
  have atEnd : List.drop [shim.flags.bits].length (List.drop [doubleQuote, 0].length
      (List.drop shim.binPath.length buffer.units)) = [] := by
    apply List.drop_eq_nil_of_le
    simp only [List.length_drop, List.length_cons, List.length_nil]
    omega
  show some (_ ++ _) = _
  rw [atEnd, List.append_nil, List.nil_append]

end BinLinkingShim

/-! ### Reading -/

section Reading

variable {front : Units} {flags : Flags}

theorem readLe_flags : readLe (bytesOf (front ++ [flags.bits]))
    ((bytesOf (front ++ [flags.bits])).length - 2) 2 = some flags.bits.toNat := by
  have isEnd : (bytesOf (front ++ [flags.bits])).length - 2 = (bytesOf front).length := by
    rw [bytesOf_append, List.length_append, bytesOf_singleton, leBytes_length,
      Nat.add_sub_cancel]
  have here : At (bytesOf front ++ leBytes 2 flags.bits.toNat ++ []) (bytesOf front).length
      (leBytes 2 flags.bits.toNat) := At.of_append _ _ _
  rw [List.append_nil] at here
  rw [isEnd, bytesOf_append, bytesOf_singleton]
  exact readLe_leBytes (by decide) flags.bits.toNat_lt here

theorem take_bytesOf (binPath rest : Units) :
    (bytesOf (binPath ++ rest)).take (binPath.length * 2) = bytesOf binPath := by
  rw [bytesOf_append, ← length_bytesOf, List.take_left]

/-- The path is found by its length. -/
theorem looseDecode_shebang {binPath window : Units} {shebang : Shebang}
    (valid : flags.isValid = true) (has : flags.hasShebang = true)
    (nonempty : binPath ≠ []) (small : binPath.length * 2 < 2 ^ 32) :
    looseDecode (bytesOf (BinLinkingShim.shebangUnits binPath window shebang flags)) =
      some (some { binPath, flags }) := by
  have isLength := length_bytesOf (BinLinkingShim.shebangUnits binPath window shebang flags)
  rw [BinLinkingShim.length_shebangUnits] at isLength
  have readFlags : readLe (bytesOf (BinLinkingShim.shebangUnits binPath window shebang flags))
      ((bytesOf (BinLinkingShim.shebangUnits binPath window shebang flags)).length - 2) 2 =
        some flags.bits.toNat := readLe_flags
  have readPath : readLe (bytesOf (BinLinkingShim.shebangUnits binPath window shebang flags))
      ((bytesOf (BinLinkingShim.shebangUnits binPath window shebang flags)).length - 2 - 2 * 4) 4 =
        some (binPath.length * 2) := by
    have here := At.of_append
      (bytesOf (binPath ++ [BinLinkingShim.doubleQuote, 0] ++ window ++ [BinLinkingShim.space]))
      (leBytes 4 (binPath.length * 2))
      (bytesOf (BinLinkingShim.u32Units (shebang.utf16Len * 2 + 2).toNat ++ [flags.bits]))
    have isWhole : bytesOf (binPath ++ [BinLinkingShim.doubleQuote, 0] ++ window ++
          [BinLinkingShim.space]) ++ leBytes 4 (binPath.length * 2) ++
        bytesOf (BinLinkingShim.u32Units (shebang.utf16Len * 2 + 2).toNat ++ [flags.bits]) =
          bytesOf (BinLinkingShim.shebangUnits binPath window shebang flags) := by
      rw [← bytesOf_u32 small, ← bytesOf_append, ← bytesOf_append]
      simp only [BinLinkingShim.shebangUnits, List.append_assoc]
    have isOffset : (bytesOf (binPath ++ [BinLinkingShim.doubleQuote, 0] ++ window ++
          [BinLinkingShim.space])).length =
        (bytesOf (BinLinkingShim.shebangUnits binPath window shebang flags)).length -
          2 - 2 * 4 := by
      rw [isLength, length_bytesOf]
      simp only [List.length_append, List.length_cons, List.length_nil]
      omega
    rw [isWhole, isOffset] at here
    exact readLe_leBytes (by decide) small here
  have isPath : (bytesOf (BinLinkingShim.shebangUnits binPath window shebang flags)).take
      (binPath.length * 2) = bytesOf binPath := by
    have isWhole : BinLinkingShim.shebangUnits binPath window shebang flags =
        binPath ++ ([BinLinkingShim.doubleQuote, 0] ++ window ++ [BinLinkingShim.space] ++
          BinLinkingShim.u32Units (binPath.length * 2) ++
          BinLinkingShim.u32Units (shebang.utf16Len * 2 + 2).toNat ++ [flags.bits]) := by
      simp only [BinLinkingShim.shebangUnits, List.append_assoc]
    rw [isWhole, take_bytesOf]
  have positive := List.length_pos_of_ne_nil nonempty
  have long : ¬ (bytesOf (BinLinkingShim.shebangUnits binPath window shebang flags)).length <
      2 + 2 * 4 + 8 := by omega
  have even : ¬ binPath.length * 2 % 2 ≠ 0 := by omega
  have short : ¬ binPath.length * 2 >
      (bytesOf (BinLinkingShim.shebangUnits binPath window shebang flags)).length - 8 := by omega
  have inside : binPath.length * 2 ≤
      (bytesOf (BinLinkingShim.shebangUnits binPath window shebang flags)).length := by omega
  have isFlags : (⟨UInt16.ofNat flags.bits.toNat⟩ : Flags) = flags := by
    rw [UInt16.ofNat_toNat]
  have evenBytes : ¬ (bytesOf binPath).length % 2 ≠ 0 := by
    rw [length_bytesOf]
    exact even
  unfold looseDecode
  rw [if_neg long, readFlags]
  simp only [Option.bind_eq_bind, Option.bind_some, isFlags, valid, has, readPath, if_true,
    Bool.true_eq_false, if_false, if_neg even, if_neg short, if_pos inside, isPath,
    if_neg evenBytes, unitsOf_bytesOf, Option.pure_def]

/-- Without a shebang all but the flags is taken for the path. -/
theorem looseDecode_plain {binPath : Units} (valid : flags.isValid = true)
    (hasNot : flags.hasShebang = false) :
    looseDecode (bytesOf (binPath ++ [BinLinkingShim.doubleQuote, 0] ++ [flags.bits])) =
      if binPath.length < 6 then some none
      else some (some { binPath := binPath ++ [BinLinkingShim.doubleQuote, 0], flags }) := by
  have isLength :=
    length_bytesOf (binPath ++ [BinLinkingShim.doubleQuote, 0] ++ [flags.bits])
  simp only [List.length_append, List.length_cons, List.length_nil] at isLength
  have readFlags : readLe (bytesOf (binPath ++ [BinLinkingShim.doubleQuote, 0] ++ [flags.bits]))
      ((bytesOf (binPath ++ [BinLinkingShim.doubleQuote, 0] ++ [flags.bits])).length - 2) 2 =
        some flags.bits.toNat := readLe_flags
  have isPath : (bytesOf (binPath ++ [BinLinkingShim.doubleQuote, 0] ++ [flags.bits])).take
      ((bytesOf (binPath ++ [BinLinkingShim.doubleQuote, 0] ++ [flags.bits])).length - 2) =
        bytesOf (binPath ++ [BinLinkingShim.doubleQuote, 0]) := by
    have isEnd : (bytesOf (binPath ++ [BinLinkingShim.doubleQuote, 0] ++ [flags.bits])).length - 2 =
        (binPath ++ [BinLinkingShim.doubleQuote, 0]).length * 2 := by
      rw [isLength]
      simp only [List.length_append, List.length_cons, List.length_nil]
      omega
    rw [isEnd, take_bytesOf]
  have isFlags : (⟨UInt16.ofNat flags.bits.toNat⟩ : Flags) = flags := by
    rw [UInt16.ofNat_toNat]
  have evenBytes : ¬ (bytesOf (binPath ++ [BinLinkingShim.doubleQuote, 0])).length % 2 ≠ 0 := by
    rw [length_bytesOf]
    omega
  unfold looseDecode
  by_cases short : binPath.length < 6
  · rw [if_pos short, if_pos (by omega)]
  · rw [if_neg short, if_neg (by omega), readFlags]
    simp only [Option.bind_eq_bind, Option.bind_some, isFlags, valid, hasNot, Bool.true_eq_false,
      Bool.false_eq_true, if_false, isPath, if_neg evenBytes, unitsOf_bytesOf, Option.pure_def]

end Reading

/-! ### The flags of a shim -/

theorem flags_valid (shim : BinLinkingShim) : shim.flags.isValid = true := by
  have all (isNodeOrBun isNode : Bool) :
      ((Flags.new isNodeOrBun false true VersionFlag.current).setIsNode isNode).isValid = true := by
    cases isNodeOrBun with
    | true =>
        cases isNode with
        | true => rfl
        | false => rfl
    | false =>
        cases isNode with
        | true => rfl
        | false => rfl
  unfold BinLinkingShim.flags
  split
  · exact all _ _
  · rfl

theorem flags_hasShebang (shim : BinLinkingShim) :
    shim.flags.hasShebang = shim.shebang.isSome := by
  have all (isNodeOrBun isNode : Bool) :
      ((Flags.new isNodeOrBun false true VersionFlag.current).setIsNode isNode).hasShebang =
        true := by
    cases isNodeOrBun with
    | true =>
        cases isNode with
        | true => rfl
        | false => rfl
    | false =>
        cases isNode with
        | true => rfl
        | false => rfl
  unfold BinLinkingShim.flags
  cases shim.shebang with
  | some shebang => exact all _ _
  | none => rfl

/-! ### Round trips -/

/-- A shim is written, and its path and flags are read back. -/
def RoundTrips (simdutf : Simdutf) (shim : BinLinkingShim) (buffer : shim.Buffer) : Prop :=
  ∃ units, shim.encodeInto simdutf buffer = some units ∧
    looseDecode (bytesOf units) = some (some { binPath := shim.binPath, flags := shim.flags })

/-- Shims are read back exactly where they have a shebang whose launcher fits, and the length of
the path fits its field. -/
theorem loose_decode_encode_into (simdutf : Simdutf) (shim : BinLinkingShim)
    (buffer : shim.Buffer) :
    RoundTrips simdutf shim buffer ↔
      ∃ shebang, shim.shebang = some shebang ∧ shim.binPath.length * 2 < 2 ^ 32 ∧
        (convertedUnits simdutf shebang.utf16Len.toNat shebang.launcher).isSome = true := by
  constructor
  · rintro ⟨units, isEncoded, isDecoded⟩
    cases isShebang : shim.shebang with
    | none =>
        rw [BinLinkingShim.encodeInto_plain shim buffer isShebang] at isEncoded
        obtain rfl := Option.some.inj isEncoded
        have hasNot : shim.flags.hasShebang = false := by
          rw [flags_hasShebang, isShebang]
          rfl
        rw [looseDecode_plain (flags_valid shim) hasNot] at isDecoded
        split at isDecoded
        · cases isDecoded
        · have samePath := congrArg Decoded.binPath (Option.some.inj (Option.some.inj isDecoded))
          have sameLength := congrArg List.length samePath
          rw [List.length_append] at sameLength
          simp only [List.length_cons, List.length_nil] at sameLength
          omega
    | some shebang =>
        refine ⟨shebang, rfl, ?_⟩
        by_contra panics
        have either : convertedUnits simdutf shebang.utf16Len.toNat shebang.launcher = none ∨
            ¬ shim.binPath.length * 2 < 2 ^ 32 := by
          rcases not_and_or.mp panics with large | isNone
          · exact .inr large
          · exact .inl (Option.not_isSome_iff_eq_none.mp isNone)
        rw [BinLinkingShim.encodeInto_none shim buffer isShebang either] at isEncoded
        cases isEncoded
  · rintro ⟨shebang, isShebang, small, fits⟩
    obtain ⟨units, isConverted⟩ := Option.isSome_iff_exists.mp fits
    obtain ⟨window, isEncoded⟩ :=
      BinLinkingShim.encodeInto_shebang shim buffer isShebang isConverted small
    refine ⟨_, isEncoded, looseDecode_shebang (flags_valid shim) ?_ shim.nonempty small⟩
    rw [flags_hasShebang, isShebang]
    rfl

/-- `a\b.exe`, with no shebang. -/
def plainShim : BinLinkingShim where
  binPath := [0x61, 0x5C, 0x62, 0x2E, 0x65, 0x78, 0x65]
  shebang := none
  nonempty := List.cons_ne_nil _ _
  noSlash := by decide

/-- A buffer of the right length. -/
def plainBuffer : plainShim.Buffer := ⟨List.replicate 10 0, rfl⟩

/-- No shebang is converted here. -/
def noSimdutf : Simdutf := ⟨fun _ => 0, fun _ => none⟩

theorem quote_read_with_path : ¬ RoundTrips noSimdutf plainShim plainBuffer := by
  rintro ⟨units, isEncoded, isDecoded⟩
  rw [BinLinkingShim.encodeInto_plain plainShim plainBuffer rfl] at isEncoded
  obtain rfl := Option.some.inj isEncoded
  have isRead : looseDecode (bytesOf (plainShim.binPath ++ [BinLinkingShim.doubleQuote, 0] ++
      [plainShim.flags.bits])) = _ := looseDecode_plain (flags_valid plainShim) rfl
  rw [isRead] at isDecoded
  cases isDecoded

end Bunx.WindowsShim
