/-
Module: Bunx.Semver.Desugaring
Purpose: A comparator with a partial version, or a hyphenated range of two, admits the releases of
  its interval, except that a number behind a wildcard on the left of a hyphen is kept.
Trusted boundary: none
Main exports: Release, Operator, Admits, AdmitsHyphen, parse_comparator, parse_hyphenated, desugaring
-/
import Bunx.Semver.QueryParse
import Bunx.Semver.PartialVersions

namespace Bunx.Semver

/-! ### Releases and the intervals that are documented -/

/-- A version without tags. -/
structure Release where
  major : Nat
  minor : Nat
  patch : Nat
deriving DecidableEq, Repr

def Release.Before (a b : Release) : Prop :=
  a.major < b.major ∨
    a.major = b.major ∧ (a.minor < b.minor ∨ a.minor = b.minor ∧ a.patch < b.patch)

instance (a b : Release) : Decidable (a.Before b) := by
  unfold Release.Before
  infer_instance

def Version.release (v : Version) : Release :=
  { major := v.major, minor := v.minor, patch := v.patch }

/-- A version without a prerelease whose numbers are of 64 bits. -/
structure Version.IsRelease (v : Version) : Prop where
  noPre : v.tag.pre.value = []
  major : v.major ≤ u64Max
  minor : v.minor ≤ u64Max
  patch : v.patch ≤ u64Max

namespace PartialVersion

/-- The first release with the numbers up to the first wildcard. -/
def first (p : PartialVersion) : Release :=
  match p.minorNumber, p.patchNumber with
  | none, _ => ⟨p.majorNumber, 0, 0⟩
  | some minor, none => ⟨p.majorNumber, minor, 0⟩
  | some minor, some patch => ⟨p.majorNumber, minor, patch⟩

/-- The first release after those. -/
def after (p : PartialVersion) : Release :=
  match p.minorNumber, p.patchNumber with
  | none, _ => ⟨p.majorNumber + 1, 0, 0⟩
  | some minor, none => ⟨p.majorNumber, minor + 1, 0⟩
  | some minor, some patch => ⟨p.majorNumber, minor, patch + 1⟩

/-- The next minor release, or the next major one where no minor is given. -/
def afterTilde (p : PartialVersion) : Release :=
  match p.minorNumber with
  | none => ⟨p.majorNumber + 1, 0, 0⟩
  | some minor => ⟨p.majorNumber, minor + 1, 0⟩

/-- The next change of the left-most number that is not zero, among those that are given. -/
def afterCaret (p : PartialVersion) : Release :=
  match p.majorNumber, p.minorNumber, p.patchNumber with
  | 0, some 0, some patch => ⟨0, 0, patch + 1⟩
  | 0, some minor, _ => ⟨0, minor + 1, 0⟩
  | major, _, _ => ⟨major + 1, 0, 0⟩

end PartialVersion

inductive Operator where
  | none
  | eq
  | gt
  | gte
  | lt
  | lte
  | tilde
  | tildeGt
  | caret
deriving DecidableEq, Repr

namespace Operator

def text : Operator → Bytes
  | .none => []
  | .eq => [0x3d]
  | .gt => [0x3e]
  | .gte => [0x3e, 0x3d]
  | .lt => [0x3c]
  | .lte => [0x3c, 0x3d]
  | .tilde => [0x7e]
  | .tildeGt => [0x7e, 0x3e]
  | .caret => [0x5e]

def tag : Operator → TokenTag
  | .none | .eq => .version
  | .gt => .gt
  | .gte => .gte
  | .lt => .lt
  | .lte => .lte
  | .tilde | .tildeGt => .tilda
  | .caret => .caret

end Operator

/-- The documented interval of a comparator. -/
def Admits (op : Operator) (p : PartialVersion) (v : Release) : Prop :=
  match op with
  | .none | .eq => ¬v.Before p.first ∧ v.Before p.after
  | .gt => ¬v.Before p.after
  | .gte => ¬v.Before p.first
  | .lt => v.Before p.first
  | .lte => v.Before p.after
  | .tilde | .tildeGt => ¬v.Before p.first ∧ v.Before p.afterTilde
  | .caret => ¬v.Before p.first ∧ v.Before p.afterCaret

/-- The documented interval of a hyphenated range. -/
def AdmitsHyphen (p q : PartialVersion) (v : Release) : Prop :=
  ¬v.Before p.first ∧ v.Before q.after

/-! ### Comparators -/

section

variable {v : Version}

theorem order_release (isRelease : v.IsRelease) {c : Version} (plain : c.tag = {}) :
    v.orderWithoutBuild c =
      if v.release.Before c.release then .lt
      else if c.release.Before v.release then .gt else .eq := by
  have tags : v.tag.orderWithoutBuild c.tag = .eq := by
    unfold Tag.orderWithoutBuild ExternalString.order ExternalString.isEmpty
    rw [plain, isRelease.noPre]
    exact ite_self _
  have noPre : v.tag.hasPre = false := by
    unfold Tag.hasPre ExternalString.isEmpty
    rw [isRelease.noPre]
    rfl
  have noPre' : c.tag.hasPre = false := by
    rw [plain]
    rfl
  unfold Version.orderWithoutBuild Version.orderWithoutTag
  rw [noPre, noPre', tags]
  by_cases less : v.release.Before c.release
  · rw [if_pos less]
    unfold Release.Before Version.release at less
    dsimp only at less
    split_ifs <;> first | rfl | omega
  · rw [if_neg less]
    by_cases greater : c.release.Before v.release
    · rw [if_pos greater]
      unfold Release.Before Version.release at greater
      dsimp only at greater
      split_ifs <;> first | rfl | omega
    · rw [if_neg greater]
      unfold Release.Before Version.release at less greater
      dsimp only at less greater
      split_ifs <;> first | rfl | omega

/-- What a comparator admits. -/
theorem satisfies_iff (isRelease : v.IsRelease) {c : Comparator} (plain : c.version.tag = {}) :
    c.satisfies v = true ↔
      match c.op with
      | .unset => False
      | .eql => ¬v.release.Before c.version.release ∧ ¬c.version.release.Before v.release
      | .lt => v.release.Before c.version.release
      | .lte => ¬c.version.release.Before v.release
      | .gt => c.version.release.Before v.release
      | .gte => ¬v.release.Before c.version.release := by
  have irreflexive (h : v.release.Before c.version.release)
      (h' : c.version.release.Before v.release) : False := by
    unfold Release.Before at h h'
    omega
  unfold Comparator.satisfies
  rw [order_release isRelease plain]
  by_cases less : v.release.Before c.version.release
  · have notGreater : ¬c.version.release.Before v.release := irreflexive less
    rw [if_pos less]
    cases c.op <;> simp [less, notGreater]
  · rw [if_neg less]
    by_cases greater : c.version.release.Before v.release
    · rw [if_pos greater]
      cases c.op <;> simp [less, greater]
    · rw [if_neg greater]
      cases c.op <;> simp [less, greater]

/-- Both comparators of a range have to admit a version; the second one may be missing. -/
theorem Range.satisfies_iff {r : Range} (hasLeft : r.left.op ≠ .unset) :
    r.satisfies v = true ↔
      r.left.satisfies v = true ∧ (r.right.op ≠ .unset → r.right.satisfies v = true) := by
  have isLeft : r.hasLeft = true := bne_iff_ne.mpr hasLeft
  unfold Range.satisfies Range.hasRight
  rw [isLeft]
  by_cases noRight : r.right.op = .unset
  · cases r.left.satisfies v <;> simp [noRight]
  · cases r.left.satisfies v <;> cases r.right.satisfies v <;> simp [noRight]

/-- A parsed text of one range admits what the range does. -/
theorem Group.satisfies_head (isRelease : v.IsRelease) (r : Range) :
    Group.satisfies { head := { head := r } } v = r.satisfies v := by
  have noPre : v.tag.hasPre = false := by
    unfold Tag.hasPre ExternalString.isEmpty
    rw [isRelease.noPre]
    rfl
  unfold Group.satisfies
  rw [noPre]
  simp [AndList.satisfies]

end

/-! ### The ranges of operators -/

def Release.version (r : Release) : Version :=
  { major := r.major, minor := r.minor, patch := r.patch }

/-- The last release with the numbers up to the first wildcard. -/
def PartialVersion.last (p : PartialVersion) : Release :=
  match p.minorNumber, p.patchNumber with
  | none, _ => ⟨p.majorNumber, u64Max, u64Max⟩
  | some minor, none => ⟨p.majorNumber, minor, u64Max⟩
  | some minor, some patch => ⟨p.majorNumber, minor, patch⟩

/-- The range of an operator with a partial version. -/
def Operator.range (op : Operator) (p : PartialVersion) : Option Range :=
  { tag := op.tag, wildcard := p.wildcard : Token }.toRange p.read

theorem saturatingAdd_one {n : Nat} (small : n < u64Max) : saturatingAdd n 1 = n + 1 :=
  Nat.min_eq_left small

section

variable {p : PartialVersion}

theorem read_eq (p : PartialVersion) :
    p.read = { major := some p.majorNumber, minor := p.minorNumber, patch := p.patchNumber } := rfl

/-- A comparison goes to the first or to the last release. -/
theorem range_comparison {op : Operator} {o : Op} (isComparison : comparisonOp op.tag = some o) :
    op.range p = some { left := wildcardComparator o p.first.version p.last.version } := by
  unfold Operator.range PartialVersion.wildcard PartialVersion.first PartialVersion.last
  rw [read_eq]
  cases p.minorNumber with
  | none =>
      cases op <;> cases isComparison <;> rfl
  | some minor =>
      cases p.patchNumber with
      | none => cases op <;> cases isComparison <;> rfl
      | some patch => cases op <;> cases isComparison <;> rfl

theorem range_tilde (small : p.Small) {op : Operator} (isTilde : op.tag = .tilda) :
    op.range p = some { left := { op := .gte, version := p.first.version }
                        right := { op := .lt, version := p.afterTilde.version } } := by
  have next := saturatingAdd_one small.major
  have nextMinor := small.minor
  unfold Operator.range PartialVersion.first PartialVersion.afterTilde Token.toRange
  rw [read_eq, isTilde]
  cases isMinor : p.minorNumber with
  | none =>
      dsimp only [tildaRange]
      rw [next]
      rfl
  | some minor =>
      have nextMinor := saturatingAdd_one (small.minor minor isMinor)
      dsimp only [tildaRange]
      rw [nextMinor]
      cases p.patchNumber <;> rfl

theorem range_caret (small : p.Small) :
    Operator.caret.range p = some { left := { op := .gte, version := p.first.version }
                                    right := { op := .lt, version := p.afterCaret.version } } := by
  have next := saturatingAdd_one small.major
  unfold Operator.range PartialVersion.first PartialVersion.afterCaret Token.toRange
  rw [read_eq]
  cases isMinor : p.minorNumber with
  | none =>
      dsimp only [Operator.tag, caretRange]
      rw [next]
      cases p.majorNumber <;> rfl
  | some minor =>
      have nextMinor := saturatingAdd_one (small.minor minor isMinor)
      cases isPatch : p.patchNumber with
      | none =>
          dsimp only [Operator.tag, caretRange]
          rw [next, nextMinor]
          cases p.majorNumber with
          | zero => cases minor <;> rfl
          | succ major => rfl
      | some patch =>
          have nextPatch := saturatingAdd_one (small.patch patch isPatch)
          dsimp only [Operator.tag, caretRange]
          rw [next, nextMinor, nextPatch]
          cases p.majorNumber with
          | zero => cases minor <;> rfl
          | succ major => rfl

/-- Without an operator a partial version stands for all its releases. -/
theorem range_version (small : p.Small) {op : Operator} (isVersion : op.tag = .version) :
    op.range p = some
      (if p.wildcard = .none then { left := { op := .eql, version := p.first.version } }
      else
        { left := { op := .lt, version := p.after.version }
          right := { op := .gte, version := p.first.version } }) := by
  have next := saturatingAdd_one small.major
  unfold Operator.range PartialVersion.wildcard PartialVersion.first PartialVersion.after
    Token.toRange
  rw [read_eq, isVersion]
  cases isMinor : p.minorNumber with
  | none =>
      dsimp only [Range.initWildcard, Partial.min]
      rw [Option.getD_some, next]
      rfl
  | some minor =>
      have nextMinor := saturatingAdd_one (small.minor minor isMinor)
      cases p.patchNumber with
      | none =>
          dsimp only [Range.initWildcard, Partial.min]
          rw [Option.getD_some, Option.getD_some, nextMinor]
          rfl
      | some patch => rfl

/-- Nothing lies between the last release of a prefix and the first one after it. -/
theorem last_before_iff {v : Version} (isRelease : v.IsRelease) :
    p.last.Before v.release ↔ ¬v.release.Before p.after := by
  have minor := isRelease.minor
  have patch := isRelease.patch
  unfold PartialVersion.last PartialVersion.after Release.Before Version.release
  cases p.minorNumber with
  | none =>
      dsimp only
      omega
  | some minor =>
      cases p.patchNumber with
      | none =>
          dsimp only
          omega
      | some patch =>
          dsimp only
          omega

theorem first_eq_last (exact : p.wildcard = .none) : p.first = p.last := by
  unfold PartialVersion.wildcard at exact
  unfold PartialVersion.first PartialVersion.last
  cases isMinor : p.minorNumber with
  | none =>
      rw [isMinor] at exact
      cases exact
  | some minor =>
      cases isPatch : p.patchNumber with
      | none =>
          rw [isMinor, isPatch] at exact
          cases exact
      | some patch => rfl

/-- One comparator without tags. -/
theorem oneSided_iff {v : Version} {op : Op} (isSet : op ≠ .unset) (r : Release) :
    ({ left := { op, version := r.version } } : Range).satisfies v = true ↔
      ({ op, version := r.version } : Comparator).satisfies v = true := by
  rw [Range.satisfies_iff isSet]
  exact and_iff_left fun notUnset => absurd rfl notUnset

/-- From the first release to before the second one. -/
theorem twoSided_iff {v : Version} (isRelease : v.IsRelease) (r t : Release) :
    ({ left := { op := .gte, version := r.version }
       right := { op := .lt, version := t.version } } : Range).satisfies v = true ↔
      ¬v.release.Before r ∧ v.release.Before t := by
  rw [Range.satisfies_iff (by simp), satisfies_iff isRelease rfl, satisfies_iff isRelease rfl]
  exact and_congr_right fun _ => ⟨fun right => right (by simp), fun right _ => right⟩

theorem range_admits (op : Operator) (small : p.Small) :
    ∃ r, op.range p = some r ∧
      ∀ v : Version, v.IsRelease → (r.satisfies v = true ↔ Admits op p v.release) := by
  have plain (isVersion : op.tag = .version) : ∃ r, op.range p = some r ∧
      ∀ v : Version, v.IsRelease →
        (r.satisfies v = true ↔ ¬v.release.Before p.first ∧ v.release.Before p.after) := by
    refine ⟨_, range_version small isVersion, fun v isRelease => ?_⟩
    by_cases exact : p.wildcard = .none
    · rw [if_pos exact, oneSided_iff (by simp), satisfies_iff isRelease rfl]
      have after := last_before_iff (p := p) isRelease
      rw [← first_eq_last exact] at after
      show ¬v.release.Before p.first ∧ ¬p.first.Before v.release ↔ _
      rw [after, not_not]
    · rw [if_neg exact, Range.satisfies_iff (by simp), satisfies_iff isRelease rfl,
        satisfies_iff isRelease rfl, and_comm]
      exact and_congr_left fun _ => ⟨fun right => right (by simp), fun right _ => right⟩
  have comparison {o : Op} (isComparison : comparisonOp op.tag = some o) (isSet : o ≠ .unset)
      {r : Release}
      (isEnd : wildcardComparator o p.first.version p.last.version =
        { op := o, version := r.version }) (P : Release → Prop)
      (iff : ∀ v : Version, v.IsRelease →
        (({ op := o, version := r.version } : Comparator).satisfies v = true ↔ P v.release)) :
      ∃ r, op.range p = some r ∧
        ∀ v : Version, v.IsRelease → (r.satisfies v = true ↔ P v.release) := by
    refine ⟨_, range_comparison isComparison, fun v isRelease => ?_⟩
    rw [isEnd, oneSided_iff isSet]
    exact iff v isRelease
  cases op with
  | none => exact plain rfl
  | eq => exact plain rfl
  | gt =>
      apply comparison (r := p.last) rfl nofun rfl
      intro v isRelease
      rw [satisfies_iff isRelease rfl]
      exact last_before_iff isRelease
  | gte =>
      apply comparison (r := p.first) rfl nofun rfl
      intro v isRelease
      rw [satisfies_iff isRelease rfl]
      exact Iff.rfl
  | lt =>
      apply comparison (r := p.first) rfl nofun rfl
      intro v isRelease
      rw [satisfies_iff isRelease rfl]
      exact Iff.rfl
  | lte =>
      apply comparison (r := p.last) rfl nofun rfl
      intro v isRelease
      rw [satisfies_iff isRelease rfl]
      exact not_iff_comm.mp (last_before_iff isRelease).symm
  | tilde =>
      exact ⟨_, range_tilde small rfl, fun v isRelease => twoSided_iff isRelease _ _⟩
  | tildeGt =>
      exact ⟨_, range_tilde small rfl, fun v isRelease => twoSided_iff isRelease _ _⟩
  | caret =>
      exact ⟨_, range_caret small, fun v isRelease => twoSided_iff isRelease _ _⟩

end

/-! ### Texts -/

section

variable {wyhash : Bytes → UInt64} {s : SlicedString} {p : PartialVersion}

/-- No space stands in front of a version. -/
theorem takeWhile_text {space : UInt8 → Bool} (digits : ∀ c, isDigit c = true → space c = false)
    (p : PartialVersion) (rest : Bytes) : (p.text ++ rest).takeWhile space = [] := by
  obtain ⟨c, more, isHead, digit⟩ := p.text_head
  rw [isHead]
  exact List.takeWhile_cons_of_neg (by rw [digits c digit]; exact Bool.false_ne_true)

theorem skipSpaces_text {input front rest : Bytes} (isInput : input = front ++ (p.text ++ rest)) :
    skipSpaces input front.length = front.length := by
  have noSpace (c : UInt8) (digit : isDigit c = true) : decide (c = 0x20) = false :=
    decide_eq_false (not_isDigit digit _ (by decide))
  unfold skipSpaces
  rw [isInput, List.drop_left, takeWhile_text noSpace]
  rfl

theorem skipWhitespace_text {input front rest : Bytes}
    (isInput : input = front ++ (p.text ++ rest)) :
    skipWhitespace input front.length = front.length := by
  have noSpace (c : UInt8) (digit : isDigit c = true) : isWhitespace c = false := by
    unfold isWhitespace
    simp only [List.mem_cons, List.not_mem_nil, or_false, decide_eq_false_iff_not]
    rintro (same | same | same | same | same | same) <;>
      exact not_isDigit digit _ (by decide) same
  unfold skipWhitespace
  rw [isInput, List.drop_left, takeWhile_text noSpace]
  rfl

/-- Whether the operator is one that begins an alternative. -/
def Operator.isOr : Operator → Bool
  | .none | .eq => true
  | _ => false

/-- The token of an operator, and the place of the version behind it. -/
theorem lex_operator (op : Operator) {rest : Bytes} {ch : UInt8}
    (isInput : s.slice.bytes = op.text ++ (p.text ++ rest))
    (isHead : s.slice.bytes[0]? = some ch) :
    QueryCursor.lex s.slice.bytes {} ch =
      ({ i := op.text.length, token := { tag := op.tag }, isOr := op.isOr }, false) := by
  have skip := skipSpaces_text isInput
  obtain ⟨c, more, isText, digit⟩ := p.text_head
  have first : s.slice.bytes = op.text ++ c :: (more ++ rest) := by
    rw [isInput, isText]
    rfl
  have notOther (other : UInt8) (notDigit : isDigit other = false) : c ≠ other :=
    not_isDigit digit other notDigit
  have second : s.slice.bytes[op.text.length]? = some c := by
    rw [first, List.getElem?_append_right (Nat.le_refl _), Nat.sub_self]
    rfl
  have headIs {b : UInt8} (isFirst : (op.text ++ c :: (more ++ rest))[0]? = some b) :
      s.slice.bytes[0]? = some b := by
    rw [first, isFirst]
  cases op with
  | none =>
      obtain rfl : c = ch := Option.some.inj ((headIs rfl).symm.trans isHead)
      unfold QueryCursor.lex
      dsimp only
      rw [if_neg (notOther _ (by decide)), if_neg (notOther _ (by decide)),
        if_neg (by rintro (same | same) <;> exact notOther _ (by decide) same),
        if_neg (notOther _ (by decide)), if_neg (notOther _ (by decide)), if_pos (.inl digit)]
      rfl
  | eq =>
      obtain rfl : 0x3d = ch := Option.some.inj ((headIs rfl).symm.trans isHead)
      show (({ i := skipSpaces s.slice.bytes 1, token := { tag := .version }, isOr := true } :
        QueryCursor), false) = _
      rw [show skipSpaces s.slice.bytes 1 = 1 from skip]
      rfl
  | gt =>
      obtain rfl : 0x3e = ch := Option.some.inj ((headIs rfl).symm.trans isHead)
      have isNext : s.slice.bytes[0 + 1]? = some c := second
      show (if s.slice.bytes[0 + 1]? = some 0x3d then _ else
        (({ i := skipSpaces s.slice.bytes 1, token := { tag := .gt } } : QueryCursor), false)) = _
      rw [isNext, if_neg (fun same => notOther 0x3d (by decide) (Option.some.inj same)),
        show skipSpaces s.slice.bytes 1 = 1 from skip]
      rfl
  | gte =>
      obtain rfl : 0x3e = ch := Option.some.inj ((headIs rfl).symm.trans isHead)
      have isNext : s.slice.bytes[0 + 1]? = some 0x3d := by
        rw [first]
        rfl
      show (if s.slice.bytes[0 + 1]? = some 0x3d then
        (({ i := skipSpaces s.slice.bytes 2, token := { tag := .gte } } : QueryCursor), false)
        else _) = _
      rw [if_pos isNext, show skipSpaces s.slice.bytes 2 = 2 from skip]
      rfl
  | lt =>
      obtain rfl : 0x3c = ch := Option.some.inj ((headIs rfl).symm.trans isHead)
      have isNext : s.slice.bytes[0 + 1]? = some c := second
      show (if s.slice.bytes[0 + 1]? = some 0x3d then _ else
        (({ i := skipSpaces s.slice.bytes 1, token := { tag := .lt } } : QueryCursor), false)) = _
      rw [isNext, if_neg (fun same => notOther 0x3d (by decide) (Option.some.inj same)),
        show skipSpaces s.slice.bytes 1 = 1 from skip]
      rfl
  | lte =>
      obtain rfl : 0x3c = ch := Option.some.inj ((headIs rfl).symm.trans isHead)
      have isNext : s.slice.bytes[0 + 1]? = some 0x3d := by
        rw [first]
        rfl
      show (if s.slice.bytes[0 + 1]? = some 0x3d then
        (({ i := skipSpaces s.slice.bytes 2, token := { tag := .lte } } : QueryCursor), false)
        else _) = _
      rw [if_pos isNext, show skipSpaces s.slice.bytes 2 = 2 from skip]
      rfl
  | tilde =>
      obtain rfl : 0x7e = ch := Option.some.inj ((headIs rfl).symm.trans isHead)
      have isNext : s.slice.bytes[0 + 1]? = some c := second
      show (({ i := skipSpaces s.slice.bytes (if s.slice.bytes[0 + 1]? = some 0x3e then 2 else 1)
               token := { tag := .tilda } } : QueryCursor), false) = _
      rw [isNext, if_neg (fun same => notOther 0x3e (by decide) (Option.some.inj same)),
        show skipSpaces s.slice.bytes 1 = 1 from skip]
      rfl
  | tildeGt =>
      obtain rfl : 0x7e = ch := Option.some.inj ((headIs rfl).symm.trans isHead)
      have isNext : s.slice.bytes[0 + 1]? = some 0x3e := by
        rw [first]
        rfl
      show (({ i := skipSpaces s.slice.bytes (if s.slice.bytes[0 + 1]? = some 0x3e then 2 else 1)
               token := { tag := .tilda } } : QueryCursor), false) = _
      rw [if_pos isNext, show skipSpaces s.slice.bytes 2 = 2 from skip]
      rfl
  | caret =>
      obtain rfl : 0x5e = ch := Option.some.inj ((headIs rfl).symm.trans isHead)
      show (({ i := skipSpaces s.slice.bytes 1, token := { tag := .caret }, isOr := false } :
        QueryCursor), false) = _
      rw [show skipSpaces s.slice.bytes 1 = 1 from skip]
      rfl

/-- The cursor behind a comparator that is the whole text. -/
def QueryCursor.last (length : Nat) (tag : TokenTag) (r : Range) : QueryCursor :=
  { i := length + 1, token := { tag := tag }, list := { head := { head := r } }, count := 1 }

theorem Operator.tag_ne_none (op : Operator) : op.tag ≠ .none := by
  cases op <;> decide

theorem queryRound_operator (small : p.Small) (op : Operator)
    (isInput : s.slice.bytes = op.text ++ p.text) {r : Range} (isRange : op.range p = some r) :
    queryRound wyhash s { i := op.text.length, token := { tag := op.tag }, isOr := op.isOr } =
      some (.last s.slice.bytes.length op.tag r) := by
  have isSlice : (s.sub (s.slice.from op.text.length)).slice.bytes = p.text ++ [] := by
    show s.slice.bytes.drop op.text.length = _
    rw [isInput, List.drop_left, List.append_nil]
  have isParsed := parse_partial wyhash small isSlice rfl
  have atEnd : op.text.length + p.text.length = s.slice.bytes.length := by
    rw [isInput, List.length_append]
  have noHyphen : QueryCursor.hyphenate s.slice.bytes (op.text.length + p.text.length) = none := by
    unfold QueryCursor.hyphenate
    rw [atEnd, List.getElem?_eq_none (Nat.le_refl _)]
    rfl
  have flagged (c : QueryCursor) : c.flag p.read.min = c := by
    unfold QueryCursor.flag
    rw [show p.read.min.tag.hasPre = false from rfl, show p.read.min.tag.hasBuild = false from rfl,
      Bool.or_false, Bool.or_false]
  have isAdded : QueryCursor.addComparator
      { i := op.text.length, token := { tag := op.tag }, isOr := op.isOr }
      { tag := op.tag, wildcard := p.wildcard }
      { wildcard := p.wildcard, version := p.read, len := p.text.length } =
        some { head := { head := r } } := by
    unfold Operator.range at isRange
    unfold QueryCursor.addComparator
    dsimp only
    rw [isRange]
    by_cases isVersion : op.tag = .version
    · rw [if_pos ⟨rfl, isVersion⟩]
      split
      · next exact =>
        rw [exact, isVersion] at isRange
        cases isRange
        rfl
      · rfl
    · rw [if_neg fun both => isVersion both.2, if_pos rfl]
      rfl
  unfold queryRound
  dsimp only
  rw [isParsed, Option.bind_eq_bind, Option.bind_some]
  dsimp only
  rw [flagged]
  dsimp only
  rw [noHyphen, atEnd]
  dsimp only
  rw [if_neg (op.tag_ne_none), isAdded]
  rfl

variable (wyhash) in
theorem parse_comparator (op : Operator) (small : p.Small)
    (isInput : s.slice.bytes = op.text ++ p.text) :
    ∃ r, op.range p = some r ∧
      Query.parse wyhash s = some { head := { head := r } } := by
  obtain ⟨r, isRange, -⟩ := range_admits op small
  refine ⟨r, isRange, ?_⟩
  obtain ⟨c, more, isText, digit⟩ := p.text_head
  have nonempty : 0 < s.slice.bytes.length := by
    rw [isInput, isText, List.length_append, List.length_cons]
    omega
  obtain ⟨fuel, isFuel⟩ : ∃ fuel, s.slice.bytes.length = fuel + 1 :=
    ⟨s.slice.bytes.length - 1, by omega⟩
  have isHead := List.getElem?_eq_getElem nonempty
  have isInput' : s.slice.bytes = op.text ++ (p.text ++ []) := by
    rw [isInput, List.append_nil]
  unfold Query.parse
  rw [isFuel, queryLoop, isHead]
  dsimp only
  rw [lex_operator op isInput' isHead]
  dsimp only
  rw [queryRound_operator small op isInput isRange, Option.bind_some, queryLoop]
  rw [show (QueryCursor.last s.slice.bytes.length op.tag r).i = s.slice.bytes.length + 1 from rfl,
    List.getElem?_eq_none (Nat.le_succ _)]
  rfl

/-! ### Hyphenated ranges -/

variable {q : PartialVersion}

/-- The text of a hyphenated range. -/
def hyphenText (p q : PartialVersion) : Bytes := p.text ++ ([0x20, 0x2d, 0x20] ++ q.text)

/-- The second version is found behind the hyphen. -/
theorem hyphenate_text (p q : PartialVersion) :
    QueryCursor.hyphenate (hyphenText p q) p.text.length = some (p.text.length + 3) := by
  obtain ⟨c, more, isText, digit⟩ := q.text_head
  have notOther (other : UInt8) (notDigit : isDigit other = false) : c ≠ other :=
    not_isDigit digit other notDigit
  have byte (k : Nat) : (hyphenText p q)[p.text.length + k]? =
      ([0x20, 0x2d, 0x20] ++ q.text)[k]? := by
    unfold hyphenText
    rw [List.getElem?_append_right (Nat.le_add_right _ _), Nat.add_sub_cancel_left]
  have rest (k : Nat) : (hyphenText p q).drop (p.text.length + k) =
      ([0x20, 0x2d, 0x20] ++ q.text).drop k := by
    unfold hyphenText
    rw [← List.drop_drop, List.drop_left]
  have space : (hyphenText p q)[p.text.length]? = some 0x20 := byte 0
  have first : skipWhitespace (hyphenText p q) p.text.length = p.text.length + 1 := by
    unfold skipWhitespace
    rw [show (hyphenText p q).drop p.text.length = [0x20, 0x2d, 0x20] ++ q.text from rest 0]
    rfl
  have hyphen : (hyphenText p q)[p.text.length + 1]? = some 0x2d := byte 1
  have isFront : hyphenText p q = (p.text ++ [0x20, 0x2d, 0x20]) ++ (q.text ++ []) := by
    unfold hyphenText
    rw [List.append_nil, List.append_assoc]
  have third : skipWhitespace (hyphenText p q) (p.text.length + 3) = p.text.length + 3 := by
    have skip := skipWhitespace_text isFront
    rwa [List.length_append] at skip
  have second : skipWhitespace (hyphenText p q) (p.text.length + 1 + 1) = p.text.length + 3 := by
    have noMore : (hyphenText p q).drop (p.text.length + 3) = q.text := rest 3
    unfold skipWhitespace at third ⊢
    rw [noMore] at third
    rw [show p.text.length + 1 + 1 = p.text.length + 2 from rfl, rest 2]
    show p.text.length + 2 + (0x20 :: q.text.takeWhile isWhitespace).length = _
    rw [List.length_cons]
    omega
  have head : (hyphenText p q)[p.text.length + 3]? = some c := by
    rw [byte 3]
    show q.text[0]? = some c
    rw [isText]
    rfl
  have noSign : ¬(some c = some 0x76 ∨ some c = some 0x3d) := by
    rintro (same | same)
    · exact notOther _ (by decide) (Option.some.inj same)
    · exact notOther _ (by decide) (Option.some.inj same)
  unfold QueryCursor.hyphenate
  dsimp only
  rw [space, if_neg (fun noSpace => noSpace (.inl rfl)), first, hyphen,
    if_neg (fun noHyphen => noHyphen rfl), second, head, if_neg noSign, third, head]
  exact if_pos (by simp [digit])

theorem flag_i (c : QueryCursor) (version : Version) : (c.flag version).i = c.i := rfl

theorem parse_hyphenated (small : p.Small) (small' : q.Small)
    (isInput : s.slice.bytes = hyphenText p q) :
    Query.parse wyhash s =
      some { head := { head := hyphenRange p.read.min q.read.min q.wildcard } } := by
  have isInput' : s.slice.bytes = Operator.none.text ++ (p.text ++ ([0x20, 0x2d, 0x20] ++ q.text)) :=
    isInput
  obtain ⟨c, more, isText, digit⟩ := p.text_head
  have length : s.slice.bytes.length = p.text.length + (3 + q.text.length) := by
    rw [isInput]
    unfold hyphenText
    rw [List.length_append, List.length_append]
    rfl
  have nonempty : 0 < s.slice.bytes.length := by omega
  obtain ⟨fuel, isFuel⟩ : ∃ fuel, s.slice.bytes.length = fuel + 1 :=
    ⟨s.slice.bytes.length - 1, by omega⟩
  have isHead := List.getElem?_eq_getElem nonempty
  have first : (s.sub (s.slice.from Operator.none.text.length)).slice.bytes =
      p.text ++ ([0x20, 0x2d, 0x20] ++ q.text) := isInput
  have second : (s.sub (s.slice.from (p.text.length + 3))).slice.bytes = q.text ++ [] := by
    show s.slice.bytes.drop _ = _
    rw [isInput, List.append_nil]
    unfold hyphenText
    rw [← List.drop_drop, List.drop_left]
    rfl
  have isFirst := parse_partial wyhash small first rfl
  have isSecond := parse_partial wyhash small' second rfl
  have atHyphen : QueryCursor.hyphenate s.slice.bytes (Operator.none.text.length + p.text.length) =
      some (p.text.length + 3) := by
    rw [isInput, show Operator.none.text.length = 0 from rfl, Nat.zero_add, hyphenate_text]
  have isRound : queryRound wyhash s
      { i := Operator.none.text.length, token := { tag := Operator.none.tag }
        isOr := Operator.none.isOr } =
      some (.last s.slice.bytes.length .version
        (hyphenRange p.read.min q.read.min q.wildcard)) := by
    unfold queryRound
    dsimp only
    rw [isFirst, Option.bind_eq_bind, Option.bind_some]
    dsimp only
    rw [flag_i, atHyphen]
    dsimp only
    rw [isSecond, Option.bind_some]
    have isNext : p.text.length + 3 + q.text.length + 1 = s.slice.bytes.length + 1 := by omega
    dsimp only
    rw [isNext]
    rfl
  unfold Query.parse
  rw [isFuel, queryLoop, isHead]
  dsimp only
  rw [lex_operator .none isInput' isHead]
  dsimp only
  rw [isRound, Option.bind_some, queryLoop,
    show (QueryCursor.last s.slice.bytes.length .version
      (hyphenRange p.read.min q.read.min q.wildcard)).i = s.slice.bytes.length + 1 from rfl,
    List.getElem?_eq_none (Nat.le_succ _)]
  rfl

/-- The range goes from the numbers that are written on the left to the end of the right version. -/
theorem hyphenRange_admits (small : q.Small) {v : Version} (isRelease : v.IsRelease) :
    (hyphenRange p.read.min q.read.min q.wildcard).satisfies v = true ↔
      ¬v.release.Before p.read.min.release ∧ v.release.Before q.after := by
  have next := saturatingAdd_one small.major
  by_cases exact : q.wildcard = .none
  · have after := last_before_iff (p := q) isRelease
    have isMin : q.read.min.release = q.last := by
      rw [← first_eq_last exact]
      unfold PartialVersion.wildcard at exact
      unfold PartialVersion.first Version.release Partial.min
      rw [read_eq]
      cases isMinor : q.minorNumber with
      | none =>
          rw [isMinor] at exact
          cases exact
      | some minor =>
          cases isPatch : q.patchNumber with
          | none =>
              rw [isMinor, isPatch] at exact
              cases exact
          | some patch => rfl
    rw [exact]
    unfold hyphenRange
    rw [Range.satisfies_iff (by simp), satisfies_iff isRelease rfl, satisfies_iff isRelease rfl]
    show ¬v.release.Before p.read.min.release ∧ (Op.lte ≠ .unset → ¬q.read.min.release.Before _) ↔ _
    rw [isMin, after, not_not]
    exact and_congr_right fun _ => ⟨fun right => right (by simp), fun right _ => right⟩
  · have isRange : hyphenRange p.read.min q.read.min q.wildcard =
        { left := { op := .gte, version := p.read.min.release.version }
          right := { op := .lt, version := q.after.version } } := by
      unfold PartialVersion.wildcard at exact ⊢
      unfold PartialVersion.after
      rw [read_eq q]
      cases isMinor : q.minorNumber with
      | none =>
          unfold hyphenRange Partial.min
          dsimp only
          rw [Option.getD_some, next]
          rfl
      | some minor =>
          have nextMinor := saturatingAdd_one (small.minor minor isMinor)
          cases isPatch : q.patchNumber with
          | none =>
              unfold hyphenRange Partial.min
              dsimp only
              rw [Option.getD_some, Option.getD_some, nextMinor]
              rfl
          | some patch =>
              rw [isMinor, isPatch] at exact
              exact absurd rfl exact
    rw [isRange]
    exact twoSided_iff isRelease _ _

/-- No number stands behind a wildcard on the left, or it is zero, or nothing is admitted. -/
def LeftIsExact (p q : PartialVersion) : Prop :=
  ∀ n, p.minorNumber = none → p.patchNumber = some n → n = 0 ∨ ¬p.first.Before q.after

theorem hyphen_iff (small : p.Small) (small' : q.Small) :
    (∀ v : Version, v.IsRelease →
      ((hyphenRange p.read.min q.read.min q.wildcard).satisfies v = true ↔
        AdmitsHyphen p q v.release)) ↔ LeftIsExact p q := by
  constructor
  · intro all n noMinor isPatch
    by_contra neither
    rw [not_or, not_not] at neither
    have isFirst : p.first = ⟨p.majorNumber, 0, 0⟩ := by
      unfold PartialVersion.first
      rw [noMinor]
    have isRelease : p.first.version.IsRelease := by
      rw [isFirst]
      exact ⟨rfl, Nat.le_of_lt small.major, Nat.zero_le _, Nat.zero_le _⟩
    have notBefore : ¬p.first.Before p.first := by
      unfold Release.Before
      omega
    have admitted := (hyphenRange_admits (p := p) small' isRelease).mp
      ((all _ isRelease).mpr ⟨notBefore, neither.2⟩)
    apply admitted.1
    show p.first.Before p.read.min.release
    rw [isFirst, read_eq, noMinor, isPatch]
    exact .inr ⟨rfl, .inr ⟨rfl, Nat.pos_of_ne_zero neither.1⟩⟩
  · intro isExact v isRelease
    rw [hyphenRange_admits small' isRelease]
    unfold AdmitsHyphen
    apply and_congr_left
    intro before
    by_cases same : p.read.min.release = p.first
    · rw [same]
    · -- The number behind the wildcard is the only difference.
      have noMinor : p.minorNumber = none := by
        by_contra someMinor
        obtain ⟨minor, isMinor⟩ := Option.ne_none_iff_exists'.mp someMinor
        apply same
        unfold PartialVersion.first
        rw [read_eq, isMinor]
        cases p.patchNumber <;> rfl
      have isFirst : p.first = ⟨p.majorNumber, 0, 0⟩ := by
        unfold PartialVersion.first
        rw [noMinor]
      have isMin : p.read.min.release = ⟨p.majorNumber, 0, p.patchNumber.getD 0⟩ := by
        rw [read_eq, noMinor]
        rfl
      cases isPatch : p.patchNumber with
      | none =>
          rw [isMin, isFirst, isPatch] at same
          exact absurd rfl same
      | some n =>
          rcases isExact n noMinor isPatch with rfl | nothing
          · rw [isMin, isFirst, isPatch] at same
            exact absurd rfl same
          · -- The interval is empty.
            rw [isFirst] at nothing
            rw [isMin, isFirst, isPatch]
            unfold Release.Before at before nothing ⊢
            dsimp only [Option.getD_some] at before nothing ⊢
            omega

end

/-! ### Every comparator and every hyphenated range -/

/-- A comparator admits its interval; a hyphenated range does exactly where the left version ends
with its first wildcard. -/
theorem desugaring (wyhash : Bytes → UInt64) (buf : Slice) (addr : Nat) :
    (∀ op p, p.Small → ∃ group,
      Query.parse wyhash ⟨buf, ⟨addr, op.text ++ p.text⟩⟩ = some group ∧
        ∀ v : Version, v.IsRelease → (group.satisfies v = true ↔ Admits op p v.release)) ∧
    ∀ p q, p.Small → q.Small → ∃ group,
      Query.parse wyhash ⟨buf, ⟨addr, hyphenText p q⟩⟩ = some group ∧
        ((∀ v : Version, v.IsRelease →
          (group.satisfies v = true ↔ AdmitsHyphen p q v.release)) ↔ LeftIsExact p q) := by
  constructor
  · intro op p small
    obtain ⟨r, isRange, isParsed⟩ := parse_comparator wyhash
      (s := ⟨buf, ⟨addr, op.text ++ p.text⟩⟩) op small rfl
    obtain ⟨r', isRange', admits⟩ := range_admits op small
    cases isRange.symm.trans isRange'
    refine ⟨_, isParsed, fun v isRelease => ?_⟩
    rw [Group.satisfies_head isRelease]
    exact admits v isRelease
  · intro p q small small'
    refine ⟨_, parse_hyphenated small small' rfl, ?_⟩
    rw [← hyphen_iff small small']
    apply forall₂_congr
    intro v isRelease
    rw [Group.satisfies_head isRelease]

/-- `1.x.3 - 2` does not admit 1.0.0, but `1.x - 2` does. -/
theorem number_behind_wildcard :
    ∃ group, Query.parse (fun _ => 0) ⟨⟨0, []⟩, ⟨0, hyphenText
        (.toPatch 1 (.wild .x) (.number 3)) (.toMajor 2)⟩⟩ = some group ∧
      AdmitsHyphen (.toPatch 1 (.wild .x) (.number 3)) (.toMajor 2) ⟨1, 0, 0⟩ ∧
      group.satisfies { major := 1 } = false := by
  refine ⟨_, parse_hyphenated ⟨?_, ?_, ?_⟩ ⟨?_, ?_, ?_⟩ rfl, ⟨?_, ?_⟩, rfl⟩
  all_goals decide

end Bunx.Semver
