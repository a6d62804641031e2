/-
Module: Bunx.Semver.ParseFmt
Purpose: What the version parser makes of a printed version.
Trusted boundary: none
Main exports: IsIdentifier, Version.WellFormed, RoundTrips, parse_fmt_iff
-/
import Bunx.Semver.Parse
import Bunx.Semver.StringReadBack

namespace Bunx.Semver

open Lib

/-! ### Numbers -/

theorem decimal_ne_nil (n : Nat) : decimal n ≠ [] := by
  simp [decimal, Nat.toDigits_ne_nil]

theorem decimal_length_le {n : Nat} (fits : n ≤ u64Max) : (decimal n).length ≤ 20 := by
  rw [decimal, List.length_map, Nat.length_toDigits_le_iff (by decide) (by decide)]
  unfold u64Max at fits
  omega

/-- A digit character as a byte. -/
theorem digitByte_toNat {c : Char} (digit : c.isDigit = true) :
    (UInt8.ofNat c.toNat).toNat = c.toNat ∧ 48 ≤ c.toNat ∧ c.toNat ≤ 57 := by
  have range : 48 ≤ c.toNat ∧ c.toNat ≤ 57 := by
    rwa [Char.isDigit_iff_toNat] at digit
  refine ⟨?_, range⟩
  rw [UInt8.toNat_ofNat']
  omega

theorem isDigit_iff (c : UInt8) : isDigit c = true ↔ 48 ≤ c.toNat ∧ c.toNat ≤ 57 := by
  simp [isDigit, UInt8.le_iff_toNat_le]

theorem decimal_isDigit {n : Nat} {c : UInt8} (member : c ∈ decimal n) :
    isDigit c = true := by
  obtain ⟨ch, isDigitChar, rfl⟩ := List.mem_map.mp member
  have digit := Nat.isDigit_of_mem_toDigits (by decide) (by decide) isDigitChar
  obtain ⟨same, low, high⟩ := digitByte_toNat digit
  rw [isDigit_iff, same]
  exact ⟨low, high⟩

theorem not_isDigit {c : UInt8} (digit : isDigit c = true) (other : UInt8)
    (notDigit : isDigit other = false) : c ≠ other := by
  rintro rfl
  rw [digit] at notDigit
  cases notDigit

/-- The parser's digit loop is the one of the standard library. -/
theorem parseDigits_map {digits : List Char} (all : ∀ c ∈ digits, c.isDigit = true)
    (acc : Nat) :
    parseDigits (digits.map fun c => UInt8.ofNat c.toNat) acc =
      some (Nat.ofDigitChars 10 digits acc) := by
  induction digits generalizing acc with
  | nil => rfl
  | cons c digits ih =>
      obtain ⟨same, low, high⟩ := digitByte_toNat (all c List.mem_cons_self)
      have digit : isDigit (UInt8.ofNat c.toNat) = true := by
        rw [isDigit_iff, same]
        exact ⟨low, high⟩
      have rest := ih fun d member => all d (List.mem_cons_of_mem c member)
      rw [List.map_cons, parseDigits, if_neg (not_isDigit digit _ (by decide)), if_pos digit,
        rest, Nat.ofDigitChars_cons, same, Nat.mul_comm]
      rfl

theorem parseAscii_decimal {n : Nat} (fits : n ≤ u64Max) :
    parseAscii (decimal n) = some n := by
  have all : ∀ c ∈ Nat.toDigits 10 n, c.isDigit = true := fun c member =>
    Nat.isDigit_of_mem_toDigits (by decide) (by decide) member
  have noUnderscore (c : UInt8) (member : c ∈ decimal n) : c ≠ 0x5f :=
    not_isDigit (decimal_isDigit member) _ (by decide)
  have head : (decimal n).head? ≠ some 0x5f := fun isHead =>
    noUnderscore _ (List.mem_of_mem_head? isHead) rfl
  have last : (decimal n).getLast? ≠ some 0x5f := fun isLast =>
    noUnderscore _ (List.mem_of_mem_getLast? isLast) rfl
  have value : parseDigits (decimal n) 0 = some n := by
    rw [decimal, parseDigits_map all, Nat.ofDigitChars_ten_toDigits]
  unfold parseAscii
  rw [if_neg (by simp [decimal_ne_nil, head, last]), value]
  exact if_pos fits

theorem versionNumberBytes_digits {digits bytes : Bytes}
    (all : ∀ c ∈ digits, isDigit c = true) (room : bytes.length + digits.length ≤ 20) :
    versionNumberBytes digits bytes = some (bytes ++ digits) := by
  induction digits generalizing bytes with
  | nil => simp [versionNumberBytes]
  | cons c digits ih =>
      have digit := all c List.mem_cons_self
      have notWildcard : isWildcardByte c = false := by
        simp [isWildcardByte, not_isDigit digit 0x78 (by decide),
          not_isDigit digit 0x58 (by decide), not_isDigit digit 0x2a (by decide)]
      rw [List.length_cons] at room
      have rest : versionNumberBytes digits (bytes ++ [c]) = _ := ih
        (fun d member => all d (List.mem_cons_of_mem c member))
        (by rw [List.length_append, List.length_singleton]; omega)
      rw [versionNumberBytes, notWildcard, if_neg (by decide), if_pos digit,
        if_neg (by omega), rest, List.append_assoc, List.singleton_append]

theorem parseVersionNumber_decimal {n : Nat} (fits : n ≤ u64Max) :
    parseVersionNumber (decimal n) = some n := by
  have room := decimal_length_le fits
  unfold parseVersionNumber
  rw [versionNumberBytes_digits (fun c => decimal_isDigit) (by simpa using room),
    List.nil_append]
  simp [decimal_ne_nil, parseAscii_decimal fits]

/-! ### Turns over the numbers -/

theorem takeWhile_append_stop {p : UInt8 → Bool} {run rest : Bytes}
    (all : ∀ c ∈ run, p c = true) (stop : ∀ c, rest.head? = some c → p c = false) :
    (run ++ rest).takeWhile p = run := by
  rw [List.takeWhile_append_of_pos all]
  cases rest with
  | nil => simp
  | cons c rest => simp [stop c rfl]

section

variable {wyhash : Bytes → UInt64} {s : SlicedString}

/-- A turn at a printed number takes the number, and the dot behind it where one more is
expected. -/
theorem parseTurn_number {n : Nat} {front digits rest : Bytes} {ch : UInt8}
    {c : ParseCursor} (isInput : s.slice.bytes = front ++ (decimal n ++ rest))
    (isDecimal : decimal n = ch :: digits) (fits : n ≤ u64Max)
    (stop : ∀ ch, rest.head? = some ch → isDigit ch = false) (here : c.i = front.length) :
    parseTurn wyhash s c ch = .next { c.setNumber (some n) with
        i := front.length + (decimal n).length +
          if rest.head? = some 0x2e ∧ (c.setNumber (some n)).partI ≠ 3 then 1 else 0 } := by
  have digit : isDigit ch = true := decimal_isDigit (isDecimal ▸ List.mem_cons_self)
  have more : ∀ d ∈ digits, isDigit d = true := fun d member =>
    decimal_isDigit (isDecimal ▸ List.mem_cons_of_mem ch member)
  have behind : s.slice.bytes.drop (c.i + 1) = digits ++ rest := by
    rw [isInput, isDecimal, here, ← List.drop_drop, List.drop_left]
    rfl
  have lastCharI : c.i + 1 + (List.takeWhile isDigit (digits ++ rest)).length
      = front.length + (decimal n).length := by
    rw [takeWhile_append_stop more stop, here, isDecimal, List.length_cons]
    omega
  have number : (s.slice.part c.i (front.length + (decimal n).length)).bytes = decimal n := by
    simp only [Slice.part]
    rw [isInput, here, List.drop_left, Nat.add_sub_cancel_left, List.take_left]
  have next : s.slice.bytes[front.length + (decimal n).length]? = rest.head? := by
    rw [isInput, ← List.append_assoc, ← List.length_append,
      List.getElem?_append_right (Nat.le_refl _), Nat.sub_self, List.head?_eq_getElem?]
  have notOther (other : UInt8) (notDigit : isDigit other = false) : ch ≠ other :=
    not_isDigit digit other notDigit
  have notOperator : ch ∉ ([0x7c, 0x5e, 0x23, 0x26, 0x25, 0x21] : Bytes) := by
    intro member
    simp only [List.mem_cons, List.not_mem_nil, or_false] at member
    rcases member with same | same | same | same | same | same <;>
      exact notOther _ (by decide) same
  simp only [parseTurn, behind, lastCharI, number, next, parseVersionNumber_decimal fits]
  rw [if_neg (notOther _ (by decide)), if_neg notOperator, if_pos digit]
  by_cases dot : rest.head? = some 0x2e ∧ (c.setNumber (some n)).partI ≠ 3
  · rw [if_pos dot, if_pos dot]
  · rw [if_neg dot, if_neg dot, Nat.add_zero]

theorem parseLoop_number {n : Nat} {front rest : Bytes} {c : ParseCursor} (fuel : Nat)
    (isInput : s.slice.bytes = front ++ (decimal n ++ rest)) (fits : n ≤ u64Max)
    (stop : ∀ ch, rest.head? = some ch → isDigit ch = false) (here : c.i = front.length) :
    parseLoop wyhash s (fuel + 1) c = parseLoop wyhash s fuel
      { c.setNumber (some n) with
        i := front.length + (decimal n).length +
          if rest.head? = some 0x2e ∧ (c.setNumber (some n)).partI ≠ 3 then 1 else 0 } := by
  obtain ⟨ch, digits, isDecimal⟩ := List.exists_cons_of_ne_nil (decimal_ne_nil n)
  have byte : s.slice.bytes[c.i]? = some ch := by
    rw [isInput, isDecimal, here, List.getElem?_append_right (Nat.le_refl _), Nat.sub_self]
    rfl
  rw [parseLoop, byte]
  dsimp only
  rw [parseTurn_number isInput isDecimal fits stop here]

/-! ### Tags -/

/-- A byte of an identifier. -/
def isIdentByte (c : UInt8) : Bool := isAsciiAlphabetic c || isDigit c || c == 0x2d

/-- A non-empty string over `[0-9A-Za-z-]`. -/
def IsIdentifier (text : Bytes) : Prop := text ≠ [] ∧ ∀ c ∈ text, isIdentByte c = true

instance (text : Bytes) : Decidable (IsIdentifier text) :=
  inferInstanceAs (Decidable (_ ∧ _))

/-- Identifiers joined by dots; the empty text is the part left out. -/
def Dotted (text : Bytes) : Prop :=
  ∃ ids : List Bytes, (∀ id ∈ ids, IsIdentifier id) ∧ text = List.intercalate [0x2e] ids

/-- A byte that the tag parser reads over, but for a `-` outside a prerelease. -/
def IsTagText (text : Bytes) : Prop := ∀ c ∈ text, isTagByte c = true ∨ c = 0x2d

theorem isTagByte_of_ident {c : UInt8} (ident : isIdentByte c = true) :
    isTagByte c = true ∨ c = 0x2d := by
  simp only [isIdentByte, isTagByte, Bool.or_eq_true, beq_iff_eq] at ident ⊢
  rcases ident with plain | dash
  · exact .inl (.inl plain)
  · exact .inr dash

theorem Dotted.isTagText {text : Bytes} (dotted : Dotted text) : IsTagText text := by
  obtain ⟨ids, all, rfl⟩ := dotted
  induction ids with
  | nil =>
      intro c member
      cases member
  | cons id ids ih =>
      have first : IsTagText id := fun c member =>
        isTagByte_of_ident ((all id List.mem_cons_self).2 c member)
      have later := ih fun other member =>
        all other (List.mem_cons_of_mem id member)
      cases ids with
      | nil =>
          rw [List.intercalate_singleton]
          exact first
      | cons next ids =>
          intro c member
          rw [List.intercalate_cons_cons, List.append_assoc, List.mem_append,
            List.mem_append, List.mem_singleton] at member
          rcases member with inFirst | rfl | inLater
          · exact first c inFirst
          · exact .inl rfl
          · exact later c inLater

theorem tagByte_ne {c other : UInt8} (tagByte : isTagByte c = true)
    (notTagByte : isTagByte other = false) : c ≠ other := by
  rintro rfl
  rw [tagByte] at notTagByte
  cases notTagByte

/-- The tag parser's loop over bytes that open no part. -/
theorem tagLoop_quiet {initialPreCount : Nat} {text rest : Bytes} {i : Nat} {t : TagCursor}
    (quiet : ∀ c ∈ text, isTagByte c = true ∨ c = 0x2d ∧ t.state = .pre) :
    tagLoop wyhash s initialPreCount (text ++ rest) i t =
      tagLoop wyhash s initialPreCount rest (i + text.length) t := by
  induction text generalizing i with
  | nil => rfl
  | cons c text ih =>
      have later := ih (i := i + 1) fun d member =>
        quiet d (List.mem_cons_of_mem c member)
      have position : i + 1 + text.length = i + (c :: text).length := by
        rw [List.length_cons]
        omega
      rw [List.cons_append, tagLoop]
      rcases quiet c List.mem_cons_self with tagByte | ⟨rfl, isPre⟩
      · rw [if_neg (tagByte_ne tagByte (by decide)), if_neg (tagByte_ne tagByte (by decide)),
          if_pos tagByte, later, position]
      · have same : t.minus i = t := by
          simp [TagCursor.minus, isPre]
        rw [if_neg (by decide), if_pos rfl, same, later, position]

/-- `-pre`, or nothing. -/
def preText (pre : Bytes) : Bytes := if pre = [] then [] else 0x2d :: pre

def buildText (build : Bytes) : Bytes := if build = [] then [] else 0x2b :: build

/-- The loop variables behind the prerelease. -/
def afterPre (pre : Bytes) : TagCursor :=
  if pre = [] then {} else { state := .pre, start := 1 }

theorem tagLoop_preText {pre rest : Bytes} (text : IsTagText pre) :
    tagLoop wyhash s 0 (preText pre ++ rest) 0 {} =
      tagLoop wyhash s 0 rest (preText pre).length (afterPre pre) := by
  unfold preText afterPre
  split
  · rfl
  · have dash : TagCursor.minus 0 {} = { state := .pre, start := 1 } := rfl
    rw [List.cons_append, tagLoop, if_neg (by decide), if_pos rfl, dash, tagLoop_quiet]
    · rw [List.length_cons, Nat.add_comm]
    · intro c member
      rcases text c member with tagByte | same
      · exact .inl tagByte
      · exact .inr ⟨same, rfl⟩

/-- What the parser stores of a prerelease that ends at `i`. -/
def preString (wyhash : Bytes → UInt64) (s : SlicedString) (pre : Bytes) : ExternalString :=
  if pre = [] then {} else (s.sub (s.slice.part 1 (preText pre).length)).external wyhash

theorem plus_afterPre (pre : Bytes) :
    (afterPre pre).plus wyhash s 0 (preText pre).length =
      { state := .build
        start := (preText pre).length + 1
        tag := { pre := preString wyhash s pre } } := by
  unfold afterPre preString
  split <;> simp [TagCursor.plus, TagCursor.setPre]

theorem close_afterPre (pre : Bytes) :
    (afterPre pre).close wyhash s (preText pre).length =
      { pre := preString wyhash s pre } := by
  unfold afterPre preString
  split <;> rfl

/-- The counting loop sees the sign a tag begins with. -/
theorem parseWithPreCount_zero {c : UInt8} {rest : Bytes}
    (isInput : s.slice.bytes = c :: rest) (sign : c = 0x2b ∨ c = 0x2d)
    (fits : s.slice.bytes.length < 2 ^ 32) :
    Tag.parse wyhash s =
      { tag := (tagLoop wyhash s 0 s.slice.bytes 0 {}).2.close wyhash s
          (tagLoop wyhash s 0 s.slice.bytes 0 {}).1
        len := (tagLoop wyhash s 0 s.slice.bytes 0 {}).1 % 2 ^ 32 } := by
  have word : s.slice.bytes.takeWhile (· ≠ 0x20) = c :: rest.takeWhile (· ≠ 0x20) := by
    rw [isInput, List.takeWhile_cons_of_pos]
    rcases sign with rfl | rfl <;> decide
  have bounded (b : UInt8) : (s.slice.bytes.takeWhile (· ≠ 0x20)).count b < 2 ^ 32 :=
    Nat.lt_of_le_of_lt
      (List.count_le_length.trans (List.takeWhile_prefix _).length_le) fits
  have seen : ¬((s.slice.bytes.takeWhile (· ≠ 0x20)).count 0x2b % 2 ^ 32 = 0 ∧
      (0 + (s.slice.bytes.takeWhile (· ≠ 0x20)).count 0x2d) % 2 ^ 32 = 0) := by
    rw [Nat.zero_add, Nat.mod_eq_of_lt (bounded _), Nat.mod_eq_of_lt (bounded _), word]
    rcases sign with rfl | rfl
    · rw [List.count_cons_self]
      omega
    · rw [List.count_cons_self]
      omega
  unfold Tag.parse Tag.parseWithPreCount
  simp only [seen, if_false, Nat.lt_irrefl, and_false, gt_iff_lt]

/-- What the parser stores of build metadata that is the rest of the text. -/
def buildString (wyhash : Bytes → UInt64) (s : SlicedString) (pre build : Bytes) :
    ExternalString :=
  if build = [] then {}
  else
    (s.sub (s.slice.part ((preText pre).length + 1)
      ((preText pre).length + (buildText build).length))).external wyhash

theorem tag_begins_with_sign (pre build : Bytes) (some_tag : preText pre ++ buildText build ≠ []) :
    ∃ c rest, preText pre ++ buildText build = c :: rest ∧ (c = 0x2b ∨ c = 0x2d) := by
  unfold preText buildText at *
  by_cases noPre : pre = []
  · by_cases noBuild : build = []
    · simp [noPre, noBuild] at some_tag
    · exact ⟨0x2b, build, by simp [noPre, noBuild], .inl rfl⟩
  · exact ⟨0x2d, _, by rw [if_neg noPre, List.cons_append], .inr rfl⟩

/-- A tag whose build metadata has no hyphen is taken apart as it was put together. -/
theorem tag_parse {pre build : Bytes} (isInput : s.slice.bytes = preText pre ++ buildText build)
    (some_tag : s.slice.bytes ≠ []) (fits : s.slice.bytes.length < 2 ^ 32)
    (preIsText : IsTagText pre) (buildIsText : ∀ c ∈ build, isTagByte c = true) :
    Tag.parse wyhash s =
      { tag := { pre := preString wyhash s pre, build := buildString wyhash s pre build }
        len := s.slice.bytes.length } := by
  obtain ⟨c, rest, first, sign⟩ := tag_begins_with_sign pre build (isInput ▸ some_tag)
  rw [parseWithPreCount_zero (isInput.trans first) sign fits, isInput,
    tagLoop_preText preIsText]
  rw [isInput] at fits
  by_cases noBuild : build = []
  · subst noBuild
    have noText : buildText [] = [] := rfl
    rw [noText, List.append_nil] at fits ⊢
    rw [tagLoop, close_afterPre, Nat.mod_eq_of_lt fits]
    rfl
  · have isText : buildText build = 0x2b :: build := if_neg noBuild
    have ends : tagLoop wyhash s 0 (build ++ []) ((preText pre).length + 1)
        ((afterPre pre).plus wyhash s 0 (preText pre).length) = _ :=
      tagLoop_quiet fun c member => .inl (buildIsText c member)
    have position : (preText pre).length + 1 + build.length
        = (preText pre ++ 0x2b :: build).length := by
      rw [List.length_append, List.length_cons]
      omega
    rw [List.append_nil] at ends
    rw [isText] at fits ⊢
    rw [tagLoop, if_pos rfl, ends, tagLoop, plus_afterPre, position, Nat.mod_eq_of_lt fits]
    simp [TagCursor.close, TagCursor.setBuild, buildString, noBuild, isText]

/-- A hyphen in the build metadata opens a prerelease there, and the metadata is lost. -/
theorem tag_parse_hyphen {pre build : Bytes}
    (isInput : s.slice.bytes = preText pre ++ buildText build)
    (fits : s.slice.bytes.length < 2 ^ 32) (preIsText : IsTagText pre)
    (buildIsText : IsTagText build) (hyphen : 0x2d ∈ build) :
    (Tag.parse wyhash s).tag.build = {} := by
  have noBuild : build ≠ [] := List.ne_nil_of_mem hyphen
  have isText : buildText build = 0x2b :: build := if_neg noBuild
  obtain ⟨c, rest, first, sign⟩ := tag_begins_with_sign pre build
    (by simp [isText])
  rw [parseWithPreCount_zero (isInput.trans first) sign fits, isInput,
    tagLoop_preText preIsText, isText, tagLoop, if_pos rfl, plus_afterPre]
  -- up to the first hyphen the metadata is read over, and from there on as a prerelease
  obtain ⟨before, after, rfl, noHyphen⟩ := List.eq_append_cons_of_mem hyphen
  have readOver : ∀ c ∈ before, isTagByte c = true := by
    intro c member
    rcases buildIsText c (List.mem_append_left _ member) with tagByte | rfl
    · exact tagByte
    · exact absurd member noHyphen
  have isPre : ∀ c ∈ after, isTagByte c = true ∨ c = 0x2d := fun c member =>
    buildIsText c (List.mem_append_right before (List.mem_cons_of_mem _ member))
  rw [tagLoop_quiet fun c member => .inl (readOver c member), tagLoop, if_neg (by decide),
    if_pos rfl, ← List.append_nil after]
  simp only [TagCursor.minus, ne_eq, reduceCtorEq, not_false_eq_true, if_true]
  rw [tagLoop_quiet fun c member => (isPre c member).imp_right fun dash => ⟨dash, rfl⟩]
  rfl

/-! ### What the strings read -/

/-- A part of the buffer is read back whole. -/
theorem external_value {front text after : Bytes} {addr : Nat}
    (isBuf : s.buf = ⟨addr, front ++ text ++ after⟩)
    (isSlice : s.slice = ⟨addr + front.length, text⟩) (noNul : 0 ∉ text)
    (near : front.length < 2 ^ 32) (short : text.length < 2 ^ 31) :
    (s.external wyhash).value = text := by
  unfold SlicedString.external
  rw [isBuf, isSlice]
  by_cases inline : SemverString.canInline text = true
  · have small : text.length ≤ maxInlineLen := by
      rcases (SemverString.canInline_iff text).mp inline with less | ⟨eight, _⟩
      · exact Nat.le_of_lt less
      · exact Nat.le_of_eq eight
    rw [init_inline _ ⟨addr + front.length, text⟩ small inline]
    exact SemverString.slice_inlined small inline noNul _
  · rw [init_pointed _ ⟨addr + front.length, text⟩ (Bool.eq_false_iff.mpr inline)]
    exact reads_pointed short near _ (List.prefix_append _ _)

end

/-! ### Whole versions -/

/-- A version of the grammar: 64-bit numbers, and identifiers in both parts of the tag. -/
structure Version.WellFormed (v : Version) : Prop where
  major : v.major ≤ u64Max
  minor : v.minor ≤ u64Max
  patch : v.patch ≤ u64Max
  pre : Dotted v.tag.pre.value
  build : Dotted v.tag.build.value

/-- The printed text is valid, read to its end without a wildcard, and gives the version
back. -/
def RoundTrips (wyhash : Bytes → UInt64) (addr : Nat) (v : Version) : Prop :=
  ∃ r, Version.parseUtf8 wyhash ⟨addr, v.fmt⟩ = some r ∧
    r.valid = true ∧ r.len = v.fmt.length ∧ r.wildcard = .none ∧
    r.version.major = some v.major ∧ r.version.minor = some v.minor ∧
    r.version.patch = some v.patch ∧
    r.version.tag.pre.value = v.tag.pre.value ∧
    r.version.tag.build.value = v.tag.build.value

/-- The three numbers. -/
def coreText (v : Version) : Bytes :=
  decimal v.major ++ 0x2e :: decimal v.minor ++ 0x2e :: decimal v.patch

theorem fmt_eq (v : Version) :
    v.fmt = coreText v ++ (preText v.tag.pre.value ++ buildText v.tag.build.value) := by
  unfold Version.fmt coreText preText buildText Tag.hasPre Tag.hasBuild ExternalString.isEmpty
  by_cases noPre : v.tag.pre.value = [] <;> by_cases noBuild : v.tag.build.value = [] <;>
    simp [noPre, noBuild]

/-- The loop variables behind the three numbers. -/
def coreCursor (v : Version) : ParseCursor where
  i := (coreText v).length
  partI := 3
  result :=
    { version := { major := some v.major, minor := some v.minor, patch := some v.patch } }

section

variable {wyhash : Bytes → UInt64} {s : SlicedString} {v : Version}

/-- Three turns read the numbers. -/
theorem parseLoop_core {rest : Bytes} (fuel : Nat) (wf : v.WellFormed)
    (isInput : s.slice.bytes = coreText v ++ rest)
    (stop : ∀ ch, rest.head? = some ch → isDigit ch = false) :
    parseLoop wyhash s (fuel + 3) { i := 0 } = parseLoop wyhash s fuel (coreCursor v) := by
  have dot : isDigit 0x2e = false := by decide
  have first : s.slice.bytes
      = [] ++ (decimal v.major ++ 0x2e :: (decimal v.minor ++ 0x2e :: (decimal v.patch ++ rest))) := by
    simp [isInput, coreText]
  have second : s.slice.bytes
      = (decimal v.major ++ [0x2e]) ++
        (decimal v.minor ++ 0x2e :: (decimal v.patch ++ rest)) := by
    simp [first]
  have third : s.slice.bytes
      = (decimal v.major ++ 0x2e :: decimal v.minor ++ [0x2e]) ++ (decimal v.patch ++ rest) := by
    simp [first]
  rw [parseLoop_number (fuel + 2) first wf.major (by rintro ch ⟨⟩; exact dot) rfl,
    parseLoop_number (fuel + 1) second wf.minor (by rintro ch ⟨⟩; exact dot)
      (by simp [ParseCursor.setNumber]),
    parseLoop_number fuel third wf.patch stop (by simp [ParseCursor.setNumber]; omega)]
  congr 1
  simp only [ParseCursor.setNumber, coreCursor, coreText, ne_eq, not_true_eq_false, and_false,
    if_false, Nat.add_zero, ParseCursor.mk.injEq, and_self, and_true]
  simp
  omega

/-- The turn at the sign behind the numbers parses the tag and leaves the loop. -/
theorem parseTurn_sign {ch : UInt8} {rest : Bytes}
    (isInput : s.slice.bytes = coreText v ++ ch :: rest) (sign : ch = 0x2b ∨ ch = 0x2d) :
    parseTurn wyhash s (coreCursor v) ch =
      .done ((coreCursor v).setTag
        ((coreText v).length +
          (Tag.parse wyhash (s.sub (s.slice.from (coreText v).length))).len)
        (Tag.parse wyhash (s.sub (s.slice.from (coreText v).length))).tag) := by
  have noSpace : (s.slice.bytes.drop (coreText v).length).takeWhile (· = 0x20) = [] := by
    rw [isInput, List.drop_left, List.takeWhile_cons_of_neg]
    rcases sign with rfl | rfl <;> decide
  unfold parseTurn
  rcases sign with rfl | rfl <;> simp [coreCursor, noSpace, isDigit]

/-- The buffer and the slice are the printed text. -/
def printed (addr : Nat) (v : Version) : SlicedString where
  buf := ⟨addr, v.fmt⟩
  slice := ⟨addr, v.fmt⟩

/-- The tag behind the numbers. -/
def printedTag (addr : Nat) (v : Version) : SlicedString :=
  (printed addr v).sub ((printed addr v).slice.from (coreText v).length)

variable {addr : Nat}

theorem printedTag_bytes : (printedTag addr v).slice.bytes
    = preText v.tag.pre.value ++ buildText v.tag.build.value := by
  simp only [printedTag, printed, SlicedString.sub, Slice.from]
  rw [fmt_eq, List.drop_left]

theorem coreText_length : 5 ≤ (coreText v).length := by
  have major := List.length_pos_of_ne_nil (decimal_ne_nil v.major)
  have minor := List.length_pos_of_ne_nil (decimal_ne_nil v.minor)
  have patch := List.length_pos_of_ne_nil (decimal_ne_nil v.patch)
  unfold coreText
  simp only [List.length_append, List.length_cons]
  omega

theorem skipPrefix_fmt : skipPrefix v.fmt = 0 := by
  obtain ⟨ch, digits, isDecimal⟩ := List.exists_cons_of_ne_nil (decimal_ne_nil v.major)
  have digit : isDigit ch = true := decimal_isDigit (isDecimal ▸ List.mem_cons_self)
  have kept : isSkipped ch = false := by
    unfold isSkipped
    simp only [List.mem_cons, List.not_mem_nil, or_false, decide_eq_false_iff_not]
    rintro (same | same | same | same | same | same | same | same) <;>
      exact not_isDigit digit _ (by decide) same
  unfold skipPrefix Version.fmt
  rw [isDecimal]
  simp [List.findIdx?_cons, kept]

/-- The parser on a printed version: the numbers, and the tag as the tag parser has it. -/
theorem parse_printed (wf : v.WellFormed) {len : Nat} {tag : Tag}
    (isTag : preText v.tag.pre.value ++ buildText v.tag.build.value = [] ∧
        len = 0 ∧ tag = {} ∨
      preText v.tag.pre.value ++ buildText v.tag.build.value ≠ [] ∧
        len = (Tag.parse wyhash (printedTag addr v)).len ∧
        tag = (Tag.parse wyhash (printedTag addr v)).tag) :
    Version.parse wyhash (printed addr v) =
      if (coreText v).length + len < 2 ^ 32 then
        some
          { version :=
              { major := some v.major, minor := some v.minor, patch := some v.patch
                tag := tag }
            len := (coreText v).length + len }
      else none := by
  have long := coreText_length (v := v)
  have length := congrArg List.length (fmt_eq v)
  rw [List.length_append] at length
  have nonempty : v.fmt ≠ [] := by
    intro empty
    rw [empty, List.length_nil] at length
    omega
  obtain ⟨fuel, isFuel⟩ : ∃ fuel, v.fmt.length = fuel + 3 := ⟨v.fmt.length - 3, by omega⟩
  have stop : ∀ ch, (preText v.tag.pre.value ++ buildText v.tag.build.value).head? = some ch →
      isDigit ch = false := by
    intro ch isHead
    obtain ⟨c, rest, first, sign⟩ := tag_begins_with_sign
      v.tag.pre.value v.tag.build.value (by
        intro empty
        rw [empty] at isHead
        cases isHead)
    rw [first] at isHead
    cases isHead
    rcases sign with rfl | rfl <;> decide
  have core : parseLoop wyhash (printed addr v) (fuel + 3) { i := 0 } = _ :=
    parseLoop_core fuel wf (fmt_eq v) stop
  have loop : parseLoop wyhash (printed addr v) fuel (coreCursor v)
      = (coreCursor v).setTag ((coreText v).length + len) tag := by
    rcases isTag with ⟨noTag, rfl, rfl⟩ | ⟨someTag, rfl, rfl⟩
    · have atEnd : (printed addr v).slice.bytes[(coreCursor v).i]? = none := by
        simp only [printed, coreCursor]
        rw [fmt_eq, noTag, List.append_nil]
        exact List.getElem?_eq_none (Nat.le_refl _)
      cases fuel with
      | zero => rfl
      | succ fuel =>
          rw [parseLoop, atEnd]
          rfl
    · obtain ⟨c, rest, first, sign⟩ := tag_begins_with_sign _ _ someTag
      have isInput : (printed addr v).slice.bytes = coreText v ++ c :: rest := by
        rw [← first]
        exact fmt_eq v
      have byte : (printed addr v).slice.bytes[(coreCursor v).i]? = some c := by
        rw [isInput]
        simp [coreCursor]
      obtain ⟨more, rfl⟩ : ∃ more, fuel = more + 1 := ⟨fuel - 1, by
        rw [first, List.length_cons] at length
        omega⟩
      rw [parseLoop, byte]
      dsimp only
      rw [parseTurn_sign isInput sign]
      rfl
  have isBytes : (printed addr v).slice.bytes = v.fmt := rfl
  unfold Version.parse
  simp only [isBytes, nonempty, if_false, skipPrefix_fmt]
  rw [if_neg (by omega), isFuel, core, loop]
  rfl

theorem isTagByte_of_noHyphen {text : Bytes} (isText : IsTagText text)
    (noHyphen : 0x2d ∉ text) : ∀ c ∈ text, isTagByte c = true := by
  intro c member
  rcases isText c member with tagByte | rfl
  · exact tagByte
  · exact absurd member noHyphen

theorem IsTagText.noNul {text : Bytes} (isText : IsTagText text) : 0 ∉ text := by
  intro member
  rcases isText 0 member with tagByte | dash
  · exact absurd tagByte (by decide)
  · exact absurd dash (by decide)

/-- Without a hyphen in the build metadata every part of the text is stored. -/
theorem parse_noHyphen (wf : v.WellFormed) (noHyphen : 0x2d ∉ v.tag.build.value)
    (fits : v.fmt.length < 2 ^ 32) :
    Version.parse wyhash (printed addr v) =
      some
        { version :=
            { major := some v.major, minor := some v.minor, patch := some v.patch
              tag :=
                { pre := preString wyhash (printedTag addr v) v.tag.pre.value
                  build := buildString wyhash (printedTag addr v) v.tag.pre.value
                    v.tag.build.value } }
          len := v.fmt.length } := by
  have length := congrArg List.length (fmt_eq v)
  rw [List.length_append] at length
  have isInput : (printedTag addr v).slice.bytes = _ := printedTag_bytes
  by_cases noTag : preText v.tag.pre.value ++ buildText v.tag.build.value = []
  · have noPre : v.tag.pre.value = [] := by
      have empty := (List.append_eq_nil_iff.mp noTag).1
      by_contra some_pre
      simp [preText, some_pre] at empty
    have noBuild : v.tag.build.value = [] := by
      have empty := (List.append_eq_nil_iff.mp noTag).2
      by_contra some_build
      simp [buildText, some_build] at empty
    have noString : preString wyhash (printedTag addr v) v.tag.pre.value = {} := if_pos noPre
    have noMetadata : buildString wyhash (printedTag addr v) v.tag.pre.value
        v.tag.build.value = {} := if_pos noBuild
    rw [noTag, List.length_nil, Nat.add_zero] at length
    rw [parse_printed wf (.inl ⟨noTag, rfl, rfl⟩), Nat.add_zero, ← length, if_pos fits,
      noString, noMetadata]
  · have parsed : Tag.parse wyhash (printedTag addr v) = _ := tag_parse isInput
      (isInput ▸ noTag)
      (by rw [isInput]; omega) wf.pre.isTagText
      (isTagByte_of_noHyphen wf.build.isTagText noHyphen)
    rw [parse_printed wf (.inr ⟨noTag, rfl, rfl⟩), parsed, isInput, ← length, if_pos fits]

/-- A part of the tag reads what lies there in the text. -/
theorem part_value {front text after : Bytes} (start : Nat)
    (isFmt : v.fmt = front ++ text ++ after)
    (place : front.length = (coreText v).length + start) (noNul : 0 ∉ text)
    (fits : v.fmt.length < 2 ^ 32) (short : text.length < 2 ^ 31) :
    (((printedTag addr v).sub
      ((printedTag addr v).slice.part start (start + text.length))).external wyhash).value
      = text := by
  have isText : ((v.fmt.drop (coreText v).length).drop start).take (start + text.length - start)
      = text := by
    rw [List.drop_drop, ← place, isFmt, List.append_assoc, List.drop_left,
      Nat.add_sub_cancel_left, List.take_left]
  have isSlice : (printedTag addr v).slice.part start (start + text.length)
      = ⟨addr + front.length, text⟩ := by
    simp only [printedTag, printed, SlicedString.sub, Slice.part, Slice.from, Slice.mk.injEq]
    exact ⟨by omega, isText⟩
  have near : front.length < 2 ^ 32 := by
    rw [isFmt] at fits
    simp only [List.length_append] at fits
    omega
  have isBuf : (printedTag addr v).buf = ⟨addr, front ++ text ++ after⟩ := by
    rw [← isFmt]
    rfl
  exact external_value isBuf isSlice noNul near short

theorem preString_value (isText : IsTagText v.tag.pre.value) (fits : v.fmt.length < 2 ^ 32)
    (short : v.tag.pre.value.length < 2 ^ 31) :
    (preString wyhash (printedTag addr v) v.tag.pre.value).value = v.tag.pre.value := by
  unfold preString
  split
  · rename_i noPre
    rw [noPre]
  · rename_i somePre
    have written : preText v.tag.pre.value = 0x2d :: v.tag.pre.value := if_neg somePre
    have isFmt : v.fmt = coreText v ++ [0x2d] ++ v.tag.pre.value
        ++ buildText v.tag.build.value := by
      rw [fmt_eq, written]
      simp
    have stop : (preText v.tag.pre.value).length = 1 + v.tag.pre.value.length := by
      rw [written, List.length_cons, Nat.add_comm]
    have place : (coreText v ++ [0x2d]).length = (coreText v).length + 1 := by
      rw [List.length_append, List.length_singleton]
    rw [stop]
    exact part_value 1 isFmt place isText.noNul fits short

theorem buildString_value (isText : IsTagText v.tag.build.value)
    (fits : v.fmt.length < 2 ^ 32) (short : v.tag.build.value.length < 2 ^ 31) :
    (buildString wyhash (printedTag addr v) v.tag.pre.value v.tag.build.value).value
      = v.tag.build.value := by
  unfold buildString
  split
  · rename_i noBuild
    rw [noBuild]
  · rename_i someBuild
    have written : buildText v.tag.build.value = 0x2b :: v.tag.build.value := if_neg someBuild
    have isFmt : v.fmt = coreText v ++ (preText v.tag.pre.value ++ [0x2b])
        ++ v.tag.build.value ++ [] := by
      rw [fmt_eq, written]
      simp
    have place : (coreText v ++ (preText v.tag.pre.value ++ [0x2b])).length
        = (coreText v).length + ((preText v.tag.pre.value).length + 1) := by
      simp only [List.length_append, List.length_singleton]
    have stop : (preText v.tag.pre.value).length + (buildText v.tag.build.value).length
        = (preText v.tag.pre.value).length + 1 + v.tag.build.value.length := by
      rw [written, List.length_cons]
      omega
    rw [stop]
    exact part_value _ isFmt place isText.noNul fits short

theorem external_value_length (s : SlicedString) :
    (s.external wyhash).value.length < 2 ^ 31 :=
  SemverString.slice_length_lt _ _

theorem preString_length (pre : Bytes) :
    (preString wyhash s pre).value.length < 2 ^ 31 := by
  unfold preString
  split
  · exact Nat.two_pow_pos 31
  · exact external_value_length _

theorem buildString_length (pre build : Bytes) :
    (buildString wyhash s pre build).value.length < 2 ^ 31 := by
  unfold buildString
  split
  · exact Nat.two_pow_pos 31
  · exact external_value_length _

theorem parse_len_lt {r : ParseResult} (isParse : Version.parse wyhash s = some r) :
    r.len < 2 ^ 32 := by
  unfold Version.parse at isParse
  dsimp only at isParse
  split at isParse
  · cases isParse
    exact Nat.two_pow_pos 32
  · split at isParse
    · cases isParse
      exact Nat.two_pow_pos 32
    · obtain ⟨small, same⟩ := Option.ite_none_right_eq_some.mp isParse
      cases same
      exact small

/-- With a hyphen in the build metadata none of it is stored. -/
theorem parse_hyphen (wf : v.WellFormed) (hyphen : 0x2d ∈ v.tag.build.value)
    (fits : v.fmt.length < 2 ^ 32) {r : ParseResult}
    (isParse : Version.parse wyhash (printed addr v) = some r) : r.version.tag.build = {} := by
  have length := congrArg List.length (fmt_eq v)
  rw [List.length_append] at length
  have written : buildText v.tag.build.value = 0x2b :: v.tag.build.value :=
    if_neg (List.ne_nil_of_mem hyphen)
  have someTag : preText v.tag.pre.value ++ buildText v.tag.build.value ≠ [] := by
    simp [written]
  rw [parse_printed wf (.inr ⟨someTag, rfl, rfl⟩)] at isParse
  obtain ⟨_, same⟩ := Option.ite_none_right_eq_some.mp isParse
  cases same
  exact tag_parse_hyphen printedTag_bytes (by rw [printedTag_bytes]; omega) wf.pre.isTagText
    wf.build.isTagText hyphen

end

/-- A printed version is read back just where its build metadata has no hyphen and the
lengths fit their fields. -/
theorem parse_fmt_iff (wyhash : Bytes → UInt64) (addr : Nat) (v : Version)
    (wf : v.WellFormed) :
    RoundTrips wyhash addr v ↔
      0x2d ∉ v.tag.build.value ∧ v.fmt.length < 2 ^ 32 ∧
        v.tag.pre.value.length < 2 ^ 31 ∧ v.tag.build.value.length < 2 ^ 31 := by
  constructor
  · rintro ⟨r, isParse, _, isLen, _, _, _, _, isPre, isBuild⟩
    have fits : v.fmt.length < 2 ^ 32 := isLen ▸ parse_len_lt isParse
    have noHyphen : 0x2d ∉ v.tag.build.value := by
      intro hyphen
      rw [parse_hyphen wf hyphen fits isParse] at isBuild
      rw [← isBuild] at hyphen
      cases hyphen
    have parsed : some r = _ := isParse.symm.trans (parse_noHyphen wf noHyphen fits)
    cases parsed
    refine ⟨noHyphen, fits, ?_, ?_⟩
    · rw [← isPre]
      exact preString_length _
    · rw [← isBuild]
      exact buildString_length _ _
  · rintro ⟨noHyphen, fits, preShort, buildShort⟩
    refine ⟨_, parse_noHyphen wf noHyphen fits, rfl, rfl, rfl, rfl, rfl, rfl, ?_, ?_⟩
    · exact preString_value wf.pre.isTagText fits preShort
    · exact buildString_value wf.build.isTagText fits buildShort

/-- `1.2.3-rc-1.0+exp.7`. -/
theorem parse_fmt_iff_sample :
    RoundTrips (fun _ => 0) 4096
      { major := 1, minor := 2, patch := 3
        tag := { pre := ⟨[114, 99, 45, 49, 46, 48], 0⟩, build := ⟨[101, 120, 112, 46, 55], 0⟩ } } :=
  (parse_fmt_iff (fun _ => 0) 4096
    { major := 1, minor := 2, patch := 3
      tag := { pre := ⟨[114, 99, 45, 49, 46, 48], 0⟩, build := ⟨[101, 120, 112, 46, 55], 0⟩ } }
    ⟨by decide +kernel, by decide +kernel, by decide +kernel,
      ⟨[[114, 99, 45, 49], [48]], by decide +kernel, rfl⟩,
      ⟨[[101, 120, 112], [55]], by decide +kernel, rfl⟩⟩).mpr
    ⟨by decide, by decide +kernel, by decide +kernel, by decide +kernel⟩

/-- `1.0.0+a-b`: the parser has `b` for a prerelease. -/
theorem hyphen_in_build_lost :
    ¬ ∀ (wyhash : Bytes → UInt64) (addr : Nat) (v : Version),
      v.WellFormed → RoundTrips wyhash addr v := by
  intro all
  obtain ⟨r, isParse, _, _, _, _, _, _, isPre, _⟩ := all (fun _ => 0) 4096
    { major := 1, minor := 0, patch := 0, tag := { build := ⟨[97, 45, 98], 0⟩ } }
    ⟨by decide +kernel, by decide +kernel, by decide +kernel, ⟨[], by decide, rfl⟩,
      ⟨[[97, 45, 98]], by decide +kernel, rfl⟩⟩
  have run : Version.parseUtf8 (fun _ => 0) ⟨4096, [49, 46, 48, 46, 48, 43, 97, 45, 98]⟩
      = some
        { version :=
            { major := some 1, minor := some 0, patch := some 0, tag := { pre := ⟨[98], 0⟩ } }
          len := 9 } := by
    decide +kernel
  cases run.symm.trans isParse
  cases isPre

end Bunx.Semver
