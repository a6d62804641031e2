/-
Module: Bunx.Semver.PartialVersions
Purpose: How partial versions are written, and what the version parser reads from them.
Trusted boundary: none
Main exports: Xr, PartialVersion, PartialVersion.text, PartialVersion.read, parse_partial
-/
import Bunx.Semver.ParseFmt

namespace Bunx.Semver

/-! ### Written versions -/

inductive WildcardChar where
  | x
  | X
  | star
deriving DecidableEq, Repr

def WildcardChar.byte : WildcardChar → UInt8
  | .x => 0x78
  | .X => 0x58
  | .star => 0x2a

/-- A part of a version: a number or a wildcard. -/
inductive Xr where
  | number (n : Nat)
  | wild (c : WildcardChar)
deriving DecidableEq, Repr

namespace Xr

def text : Xr → Bytes
  | .number n => decimal n
  | .wild c => [c.byte]

def value : Xr → Option Nat
  | .number n => some n
  | .wild _ => none

/-- Numbers stay below `u64::MAX`. -/
def Small (part : Xr) : Prop := ∀ n ∈ part.value, n < u64Max

end Xr

/-- A version whose major part is a number, with as many parts as are written. -/
inductive PartialVersion where
  | toMajor (major : Nat)
  | toMinor (major : Nat) (minor : Xr)
  | toPatch (major : Nat) (minor patch : Xr)
deriving DecidableEq, Repr

namespace PartialVersion

/-- The parts with dots between them. -/
def joinParts : List Xr → Bytes
  | [] => []
  | [part] => part.text
  | part :: more => part.text ++ 0x2e :: joinParts more

def parts : PartialVersion → List Xr
  | .toMajor major => [.number major]
  | .toMinor major minor => [.number major, minor]
  | .toPatch major minor patch => [.number major, minor, patch]

def text (p : PartialVersion) : Bytes := joinParts p.parts

def majorNumber : PartialVersion → Nat
  | .toMajor major => major
  | .toMinor major _ => major
  | .toPatch major _ _ => major

def minorNumber : PartialVersion → Option Nat
  | .toMajor _ => none
  | .toMinor _ minor => minor.value
  | .toPatch _ minor _ => minor.value

/-- A number can stand behind a wildcard. -/
def patchNumber : PartialVersion → Option Nat
  | .toPatch _ _ patch => patch.value
  | _ => none

def read (p : PartialVersion) : Partial :=
  { major := some p.majorNumber, minor := p.minorNumber, patch := p.patchNumber }

/-- The first part that is no number. -/
def wildcard (p : PartialVersion) : Wildcard :=
  match p.minorNumber, p.patchNumber with
  | none, _ => .minor
  | some _, none => .patch
  | some _, some _ => .none

structure Small (p : PartialVersion) : Prop where
  major : p.majorNumber < u64Max
  minor : ∀ n ∈ p.minorNumber, n < u64Max
  patch : ∀ n ∈ p.patchNumber, n < u64Max

end PartialVersion

/-! ### Reading the parts -/

/-- What a part does to the loop variables. -/
def ParseCursor.setPart (c : ParseCursor) : Xr → ParseCursor
  | .number n => c.setNumber (some n)
  | .wild _ => c.setWildcard

theorem isWildcardByte_byte (c : WildcardChar) : isWildcardByte c.byte = true := by
  cases c <;> rfl

theorem Xr.text_ne_nil (part : Xr) : part.text ≠ [] := by
  cases part with
  | number n => exact decimal_ne_nil n
  | wild c => exact List.cons_ne_nil _ _

/-- What ends a part. -/
def EndsPart (rest : Bytes) : Prop := ∀ c, rest.head? = some c → c = 0x2e ∨ c = 0x20

theorem EndsPart.notDigit {rest : Bytes} (ends : EndsPart rest) :
    ∀ c, rest.head? = some c → isDigit c = false := by
  intro c isHead
  rcases ends c isHead with rfl | rfl <;> decide

section

variable {wyhash : Bytes → UInt64} {s : SlicedString}

theorem parseLoop_wild {char : WildcardChar} {front rest : Bytes} {c : ParseCursor} (fuel : Nat)
    (isInput : s.slice.bytes = front ++ ([char.byte] ++ rest)) (ends : EndsPart rest)
    (here : c.i = front.length) :
    parseLoop wyhash s (fuel + 1) c = parseLoop wyhash s fuel
      { c.setWildcard with
        i := front.length + 1 + if rest.head? = some 0x2e then 1 else 0 } := by
  have byte : s.slice.bytes[c.i]? = some char.byte := by
    rw [isInput, here, List.getElem?_append_right (Nat.le_refl _), Nat.sub_self]
    rfl
  have behind : s.slice.bytes.drop (c.i + 1) = rest := by
    rw [isInput, here, ← List.drop_drop, List.drop_left]
    rfl
  have noMore : rest.takeWhile isWildcardByte = [] :=
    @takeWhile_append_stop isWildcardByte [] rest (fun c member => by cases member)
      (fun d isHead => by rcases ends d isHead with rfl | rfl <;> decide)
  have next : s.slice.bytes[c.i + 1]? = rest.head? := by
    rw [List.head?_eq_getElem?, ← behind, List.getElem?_drop, Nat.add_zero]
  have isTurn : parseTurn wyhash s c char.byte = .next { c.setWildcard with
      i := front.length + 1 + if rest.head? = some 0x2e then 1 else 0 } := by
    simp only [parseTurn, behind, noMore, List.length_nil, Nat.add_zero, next]
    rw [if_neg (by cases char <;> decide), if_neg (by cases char <;> decide),
      if_neg (by cases char <;> decide), if_neg (by cases char <;> decide),
      if_neg (by cases char <;> decide), if_pos (isWildcardByte_byte char), here]
    split
    · rfl
    · rfl
  rw [parseLoop, byte]
  dsimp only
  rw [isTurn]

variable (wyhash) in
/-- A turn reads a part, and the dot behind it where there is one. -/
theorem parseLoop_part {part : Xr} {front rest : Bytes} {c : ParseCursor} (fuel : Nat)
    (isInput : s.slice.bytes = front ++ (part.text ++ rest)) (small : part.Small)
    (ends : EndsPart rest) (notLast : rest.head? = some 0x2e → c.partI < 2)
    (here : c.i = front.length) :
    parseLoop wyhash s (fuel + 1) c = parseLoop wyhash s fuel
      { c.setPart part with
        i := front.length + part.text.length + if rest.head? = some 0x2e then 1 else 0 } := by
  cases part with
  | wild char => exact parseLoop_wild fuel isInput ends here
  | number n =>
      have fits : n ≤ u64Max := Nat.le_of_lt (small n rfl)
      rw [parseLoop_number fuel isInput fits ends.notDigit here]
      have sameDot : (rest.head? = some 0x2e ∧ (c.setNumber (some n)).partI ≠ 3) ↔
          rest.head? = some 0x2e := by
        constructor
        · exact And.left
        · intro isDot
          refine ⟨isDot, ?_⟩
          have early := notLast isDot
          unfold ParseCursor.setNumber
          split <;> dsimp only <;> omega
      simp only [sameDot]
      rfl

theorem setPart_partI (c : ParseCursor) (part : Xr) : (c.setPart part).partI ≤ c.partI + 1 := by
  cases part with
  | number n =>
      show (c.setNumber (some n)).partI ≤ _
      unfold ParseCursor.setNumber
      dsimp only
      split <;> first | omega | (dsimp only; omega)
  | wild char =>
      show c.setWildcard.partI ≤ _
      unfold ParseCursor.setWildcard
      split
      · split <;> first | omega | (dsimp only; omega)
      · omega

/-- Where the cursor is does not matter for what a part sets. -/
theorem foldl_setPart (parts : List Xr) (c : ParseCursor) (i j : Nat) :
    ({ parts.foldl ParseCursor.setPart { c with i := i } with i := j } : ParseCursor) =
      { parts.foldl ParseCursor.setPart c with i := j } := by
  have onePart (c : ParseCursor) (i : Nat) (part : Xr) :
      ({ c with i := i } : ParseCursor).setPart part = { c.setPart part with i := i } := by
    cases part with
    | number n =>
        show ({ c with i := i } : ParseCursor).setNumber (some n) = _
        unfold ParseCursor.setPart ParseCursor.setNumber
        dsimp only
        split <;> rfl
    | wild char =>
        show ({ c with i := i } : ParseCursor).setWildcard = { c.setWildcard with i := i }
        unfold ParseCursor.setWildcard
        dsimp only
        split
        · split <;> rfl
        · rfl
  induction parts generalizing c with
  | nil => rfl
  | cons part more ih =>
      rw [List.foldl_cons, List.foldl_cons, onePart, ih]

/-- One turn for each part. -/
theorem parseLoop_parts {parts : List Xr} {front rest : Bytes} {c : ParseCursor} (fuel : Nat)
    (nonempty : parts ≠ [])
    (isInput : s.slice.bytes = front ++ (PartialVersion.joinParts parts ++ rest))
    (small : ∀ part ∈ parts, part.Small) (ends : rest.head?.all (· = 0x20) = true)
    (few : c.partI + parts.length ≤ 3) (here : c.i = front.length) :
    parseLoop wyhash s (fuel + parts.length) c = parseLoop wyhash s fuel
      { parts.foldl ParseCursor.setPart c with
        i := front.length + (PartialVersion.joinParts parts).length } := by
  induction parts generalizing front c with
  | nil => exact absurd rfl nonempty
  | cons part more ih =>
      have partSmall := small part (List.mem_cons_self ..)
      cases more with
      | nil =>
          have isEnd : EndsPart rest := by
            intro b isHead
            rw [isHead] at ends
            exact .inr (of_decide_eq_true ends)
          have notDot : rest.head? ≠ some 0x2e := by
            intro isDot
            rw [isDot] at ends
            cases ends
          have turn := parseLoop_part wyhash (c := c) fuel isInput partSmall isEnd
            (fun isDot => absurd isDot notDot) here
          rw [if_neg notDot, Nat.add_zero] at turn
          exact turn
      | cons next more =>
          have isInput' : s.slice.bytes = front ++ (part.text ++
              0x2e :: (PartialVersion.joinParts (next :: more) ++ rest)) := by
            rw [isInput]
            show front ++ ((part.text ++ 0x2e :: PartialVersion.joinParts (next :: more)) ++ rest) = _
            rw [List.append_assoc]
            rfl
          have isInput'' : s.slice.bytes = (front ++ (part.text ++ [0x2e])) ++
              (PartialVersion.joinParts (next :: more) ++ rest) := by
            rw [isInput']
            simp only [List.append_assoc, List.cons_append, List.nil_append]
          have isEnd : EndsPart (0x2e :: (PartialVersion.joinParts (next :: more) ++ rest)) := by
            rintro b ⟨⟩
            exact .inl rfl
          have bound := setPart_partI c part
          rw [List.length_cons, List.length_cons] at few
          have turn := parseLoop_part wyhash (c := c) (fuel + (next :: more).length)
            isInput' partSmall isEnd (fun _ => by omega) here
          rw [List.head?_cons, if_pos rfl] at turn
          rw [List.length_cons, ← Nat.add_assoc, turn, ih (List.cons_ne_nil _ _)
            isInput'' (fun part member => small part (List.mem_cons_of_mem _ member))
            (by rw [List.length_cons]; dsimp only; omega)
            (by simp only [List.length_append, List.length_cons, List.length_nil]; omega)]
          have sameLength : (front ++ (part.text ++ [0x2e])).length +
              (PartialVersion.joinParts (next :: more)).length =
              front.length + (PartialVersion.joinParts (part :: next :: more)).length := by
            show _ = front.length + (part.text ++ 0x2e ::
              PartialVersion.joinParts (next :: more)).length
            simp only [List.length_append, List.length_cons, List.length_nil]
            omega
          rw [sameLength, foldl_setPart]
          rfl

namespace PartialVersion

theorem parts_small {p : PartialVersion} (small : p.Small) : ∀ part ∈ p.parts, part.Small := by
  have major := small.major
  have minor := small.minor
  have patch := small.patch
  have ofMajor {n : Nat} (fits : n < u64Max) : (Xr.number n).Small := by
    rintro m ⟨⟩
    exact fits
  intro part member
  cases p with
  | toMajor major =>
      rw [List.mem_singleton.mp member]
      exact ofMajor small.major
  | toMinor major minor =>
      rcases List.mem_pair.mp member with rfl | rfl
      · exact ofMajor small.major
      · exact small.minor
  | toPatch major minor patch =>
      simp only [parts, List.mem_cons, List.not_mem_nil, or_false] at member
      rcases member with rfl | rfl | rfl
      · exact ofMajor small.major
      · exact small.minor
      · exact small.patch

theorem parts_length (p : PartialVersion) : p.parts ≠ [] ∧ p.parts.length ≤ 3 := by
  cases p <;> exact ⟨List.cons_ne_nil _ _, by simp [parts]⟩

theorem length_joinParts (list : List Xr) (nonempty : list ≠ [])
    (small : ∀ part ∈ list, part.Small) :
    list.length ≤ (joinParts list).length ∧ (joinParts list).length ≤ 21 * list.length := by
  have ofPart {part : Xr} (small : part.Small) : 1 ≤ part.text.length ∧ part.text.length ≤ 20 := by
    refine ⟨List.length_pos_of_ne_nil part.text_ne_nil, ?_⟩
    cases part with
    | number n => exact decimal_length_le (Nat.le_of_lt (small n rfl))
    | wild char => exact Nat.le_of_ble_eq_true rfl
  induction list with
  | nil => exact absurd rfl nonempty
  | cons part more ih =>
      have bounds := ofPart (small part (List.mem_cons_self ..))
      cases more with
      | nil =>
          show 1 ≤ part.text.length ∧ part.text.length ≤ 21
          omega
      | cons next more =>
          have rest := ih (List.cons_ne_nil _ _)
            fun part member => small part (List.mem_cons_of_mem _ member)
          show _ ≤ (part.text ++ 0x2e :: joinParts (next :: more)).length ∧
            (part.text ++ 0x2e :: joinParts (next :: more)).length ≤ _
          rw [List.length_append, List.length_cons]
          simp only [List.length_cons] at rest ⊢
          omega

/-- A written version begins with a digit. -/
theorem text_head (p : PartialVersion) :
    ∃ c rest, p.text = c :: rest ∧ isDigit c = true := by
  have ofMajor (n : Nat) (more : Bytes) :
      ∃ c rest, decimal n ++ more = c :: rest ∧ isDigit c = true := by
    obtain ⟨c, rest, isDecimal⟩ := List.exists_cons_of_ne_nil (decimal_ne_nil n)
    exact ⟨c, rest ++ more, by rw [isDecimal]; rfl,
      decimal_isDigit (isDecimal ▸ List.mem_cons_self)⟩
  cases p with
  | toMajor major =>
      have head := ofMajor major []
      rwa [List.append_nil] at head
  | toMinor major minor => exact ofMajor major _
  | toPatch major minor patch => exact ofMajor major _

end PartialVersion

theorem skipPrefix_digit {c : UInt8} {rest : Bytes} (digit : isDigit c = true) :
    skipPrefix (c :: rest) = 0 := by
  have kept : isSkipped c = false := by
    unfold isSkipped
    simp only [List.mem_cons, List.not_mem_nil, or_false, decide_eq_false_iff_not]
    rintro (same | same | same | same | same | same | same | same) <;>
      exact not_isDigit digit _ (by decide) same
  unfold skipPrefix
  simp [List.findIdx?_cons, kept]

variable (wyhash) in
/-- The parser reads back what is written, up to the end or a space. -/
theorem parse_partial {p : PartialVersion} (small : p.Small) {rest : Bytes}
    (isInput : s.slice.bytes = p.text ++ rest) (ends : rest.head?.all (· = 0x20) = true) :
    Version.parse wyhash s =
      some { wildcard := p.wildcard, version := p.read, len := p.text.length } := by
  obtain ⟨c, more, isHead, digit⟩ := p.text_head
  obtain ⟨someParts, few⟩ := p.parts_length
  obtain ⟨long, short⟩ := PartialVersion.length_joinParts p.parts someParts
    (PartialVersion.parts_small small)
  have isBytes : s.slice.bytes = c :: (more ++ rest) := by
    rw [isInput, isHead]
    rfl
  have length : s.slice.bytes.length = p.text.length + rest.length := by
    rw [isInput, List.length_append]
  obtain ⟨fuel, isFuel⟩ : ∃ fuel, s.slice.bytes.length = fuel + p.parts.length :=
    ⟨s.slice.bytes.length - p.parts.length, by
      have : p.parts.length ≤ p.text.length := long
      omega⟩
  have loop := @parseLoop_parts wyhash s p.parts [] rest {} fuel someParts
    isInput (PartialVersion.parts_small small) ends (by dsimp only; omega) rfl
  have atEnd : s.slice.bytes[p.text.length]? = rest.head? := by
    rw [isInput, List.getElem?_append_right (Nat.le_refl _), Nat.sub_self, List.head?_eq_getElem?]
  have stops (fuel : Nat) (c : ParseCursor) (here : c.i = p.text.length) :
      parseLoop wyhash s fuel c = c := by
    cases fuel with
    | zero => rfl
    | succ fuel =>
        rw [parseLoop, here, atEnd]
        cases isRest : rest.head? with
        | none => rfl
        | some b =>
            rw [isRest] at ends
            obtain rfl := of_decide_eq_true ends
            rfl
  rw [stops fuel _ (by simp only [List.length_nil, Nat.zero_add]; rfl)] at loop
  unfold Version.parse
  rw [isBytes, if_neg (List.cons_ne_nil _ _), skipPrefix_digit digit, if_neg (by simp), ← isBytes,
    isFuel, loop]
  have fits : (PartialVersion.joinParts p.parts).length < 2 ^ 32 := by omega
  dsimp only
  rw [List.length_nil, Nat.zero_add, if_pos fits]
  cases p with
  | toMajor major => rfl
  | toMinor major minor => cases minor <;> rfl
  | toPatch major minor patch => cases minor <;> cases patch <;> rfl

end

end Bunx.Semver
