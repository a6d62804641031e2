/-
Module: Bunx.Paths.CommonDirectory
Purpose: What the two functions for a common directory return for at most eight paths.
Trusted boundary: none
Main exports: IsLongestDir, Conflict, common_directory
-/
import Mathlib.Data.List.Basic
import Bunx.Paths.ResolvePath

namespace Bunx.Paths

/-! ### Directories -/

/-- A text that ends in `/` and begins each of the texts. -/
def IsCommonDir (texts : List Bytes) (d : Bytes) : Prop :=
  d.getLast? = some sepPosix ∧ ∀ t ∈ texts, d <+: t

/-- No such text is longer. -/
def IsLongestDir (texts : List Bytes) (d : Bytes) : Prop :=
  IsCommonDir texts d ∧ ∀ e, IsCommonDir texts e → e.length ≤ d.length

/-- A path as a directory. -/
def asDir (path : Bytes) : Bytes := path ++ [sepPosix]

/-- Behind a common beginning one path goes on with `/` and another with another byte. -/
def Conflict (input : List Bytes) : Prop :=
  ∃ (x : Bytes) (c : UInt8), c ≠ sepPosix ∧ (∀ t ∈ input, x <+: t) ∧
    (∃ t ∈ input, x ++ [sepPosix] <+: t) ∧ ∃ t ∈ input, x ++ [c] <+: t

/-- Absolute and without a backslash. -/
structure IsPlain (path : Bytes) : Prop where
  absolute : isAbsolute path = true
  noBackslash : 0x5c ∉ path

theorem IsLongestDir.unique {texts : List Bytes} {d e t : Bytes} (member : t ∈ texts)
    (one : IsLongestDir texts d) (two : IsLongestDir texts e) : d = e := by
  have same : d.length = e.length := Nat.le_antisymm (two.2 d one.1) (one.2 e two.1)
  have first := one.1.2 t member
  have second := two.1.2 t member
  rw [List.prefix_iff_eq_take] at first second
  rw [first, second, same]

theorem IsLongestDir.congr {texts others : List Bytes} {d : Bytes}
    (same : ∀ t, t ∈ texts ↔ t ∈ others) (longest : IsLongestDir texts d) :
    IsLongestDir others d := by
  have sameDirs (e : Bytes) : IsCommonDir texts e ↔ IsCommonDir others e := by
    unfold IsCommonDir
    simp only [same]
  exact ⟨(sameDirs d).mp longest.1, fun e isDir => longest.2 e ((sameDirs e).mpr isDir)⟩

theorem prefix_getElem? {d t : Bytes} (isPrefix : d <+: t) {i : Nat} (inside : i < d.length) :
    t[i]? = d[i]? := by
  obtain ⟨rest, rfl⟩ := isPrefix
  exact List.getElem?_append_left inside

theorem take_eq_of_agree {s t : Bytes} {n : Nat} (agree : ∀ j, j < n → s[j]? = t[j]?) :
    s.take n = t.take n := by
  apply List.ext_getElem?
  intro i
  by_cases inside : i < n
  · rw [List.getElem?_take_of_lt inside, List.getElem?_take_of_lt inside, agree i inside]
  · rw [List.getElem?_eq_none (by rw [List.length_take]; omega),
      List.getElem?_eq_none (by rw [List.length_take]; omega)]

theorem take_succ_eq {t : Bytes} {i : Nat} {c : UInt8} (byte : t[i]? = some c) :
    t.take (i + 1) = t.take i ++ [c] := by
  rw [List.take_add_one, byte]
  rfl

/-! ### The last separator -/

section

variable (p : Platform) (first : Bytes)

/-- The last separator among the first `n` bytes. -/
def lastSeparator : Nat → Option Nat
  | 0 => none
  | n + 1 => recordSeparator p first n (lastSeparator n)

end

section

variable {p : Platform} {first : Bytes}

theorem lastSeparator_some {n j : Nat} (isLast : lastSeparator p first n = some j) :
    j < n ∧ (first[j]?).any p.isSeparator = true ∧
      ∀ k, j < k → k < n → (first[k]?).any p.isSeparator = false := by
  induction n with
  | zero => cases isLast
  | succ n ih =>
      unfold lastSeparator recordSeparator at isLast
      split at isLast
      · rename_i here
        obtain rfl := Option.some.inj isLast
        exact ⟨Nat.lt_succ_self n, here, fun k above below => by omega⟩
      · rename_i notHere
        obtain ⟨below, isSep, none⟩ := ih isLast
        refine ⟨Nat.lt_succ_of_lt below, isSep, fun k above belowSucc => ?_⟩
        rcases Nat.lt_succ_iff_lt_or_eq.mp belowSucc with less | rfl
        · exact none k above less
        · simpa using notHere

theorem lastSeparator_ne_none {n j : Nat} (below : j < n)
    (isSep : (first[j]?).any p.isSeparator = true) : lastSeparator p first n ≠ none := by
  induction n with
  | zero => omega
  | succ n ih =>
      unfold lastSeparator recordSeparator
      split
      · simp
      · rename_i notHere
        rcases Nat.lt_succ_iff_lt_or_eq.mp below with less | rfl
        · exact ih less
        · exact absurd isSep notHere

end

/-! ### The scan -/

theorem foldl_min_le (input : List Bytes) (start : Nat) :
    input.foldl (fun least s => min s.length least) start ≤ start ∧
      ∀ t ∈ input, input.foldl (fun least s => min s.length least) start ≤ t.length := by
  induction input generalizing start with
  | nil => exact ⟨Nat.le_refl _, fun t member => by cases member⟩
  | cons s input ih =>
      obtain ⟨below, all⟩ := ih (min s.length start)
      rw [List.foldl_cons]
      refine ⟨by omega, fun t member => ?_⟩
      rcases List.mem_cons.mp member with rfl | later
      · omega
      · exact all t later

theorem foldl_min_attained (input : List Bytes) (start : Nat) :
    input.foldl (fun least s => min s.length least) start = start ∨
      ∃ t ∈ input, input.foldl (fun least s => min s.length least) start = t.length := by
  induction input generalizing start with
  | nil => exact .inl rfl
  | cons s input ih =>
      rw [List.foldl_cons]
      rcases ih (min s.length start) with same | ⟨t, member, same⟩
      · rw [same]
        by_cases shorter : s.length ≤ start
        · exact .inr ⟨s, List.mem_cons_self, Nat.min_eq_left shorter⟩
        · exact .inl (Nat.min_eq_right (by omega))
      · exact .inr ⟨t, List.mem_cons_of_mem s member, same⟩

theorem minLength_le {input : List Bytes} {t : Bytes} (member : t ∈ input) :
    minLength input ≤ t.length := by
  cases input with
  | nil => cases member
  | cons first rest =>
      obtain ⟨below, all⟩ := foldl_min_le rest first.length
      rcases List.mem_cons.mp member with rfl | later
      · exact below
      · exact all t later

theorem minLength_attained (first : Bytes) (rest : List Bytes) :
    ∃ t ∈ first :: rest, minLength (first :: rest) = t.length := by
  rcases foldl_min_attained rest first.length with same | ⟨t, member, same⟩
  · exact ⟨first, List.mem_cons_self, same⟩
  · exact ⟨t, List.mem_cons_of_mem first member, same⟩

theorem nqlAtIndex_eq_false {first : Bytes} {rest : List Bytes} {index : Nat} :
    nqlAtIndex index (first :: rest) = false ↔ ∀ t ∈ rest, first[index]? = t[index]? := by
  simp [nqlAtIndex]

theorem nqlAtIndex_eq_true {first : Bytes} {rest : List Bytes} {index : Nat} :
    nqlAtIndex index (first :: rest) = true ↔ ∃ t ∈ rest, first[index]? ≠ t[index]? := by
  simp [nqlAtIndex]

section

variable {p : Platform} {first : Bytes} {rest : List Bytes}

theorem scanFew_differ {fuel index last : Nat}
    (differ : nqlAtIndex index (first :: rest) = true) :
    scanFew p (first :: rest) first (fuel + 1) index (some last) = .found index (some last) := by
  simp [scanFew, differ]

theorem scanFew_agree {fuel index : Nat} {last : Option Nat}
    (agree : nqlAtIndex index (first :: rest) = false) :
    scanFew p (first :: rest) first (fuel + 1) index last =
      scanFew p (first :: rest) first fuel (index + 1)
        (recordSeparator p first index last) := by
  simp [scanFew, agree]

theorem lastSeparator_or (start : Option Nat) (index : Nat) :
    recordSeparator p first index ((lastSeparator p first index).or start) =
      (lastSeparator p first (index + 1)).or start := by
  rw [lastSeparator]
  unfold recordSeparator
  split
  · rfl
  · rfl

/-- The scan of at most eight inputs stops at the first byte in which they differ, or at
the end of the shortest. -/
theorem scanFew_spec (p : Platform) (first : Bytes) (rest : List Bytes) (fuel index : Nat) :
    ∃ stop, index ≤ stop ∧ stop ≤ index + fuel ∧
      (∀ j, index ≤ j → j < stop → nqlAtIndex j (first :: rest) = false) ∧
      (stop = index + fuel ∨ nqlAtIndex stop (first :: rest) = true) ∧
      (∀ start, (lastSeparator p first stop).or start ≠ none →
        scanFew p (first :: rest) first fuel index ((lastSeparator p first index).or start)
          = .found stop ((lastSeparator p first stop).or start)) := by
  induction fuel generalizing index with
  | zero =>
      refine ⟨index, Nat.le_refl _, Nat.le_refl _, fun j low high => by omega, .inl rfl, ?_⟩
      intro start _
      rfl
  | succ fuel ih =>
      by_cases differ : nqlAtIndex index (first :: rest) = true
      · refine ⟨index, Nat.le_refl _, by omega, fun j low high => by omega, .inr differ, ?_⟩
        intro start isSome
        obtain ⟨last, isLast⟩ := Option.ne_none_iff_exists'.mp isSome
        rw [isLast]
        exact scanFew_differ differ
      · have same := Bool.eq_false_iff.mpr differ
        obtain ⟨stop, low, high, agree, ends, run⟩ := ih (index + 1)
        refine ⟨stop, by omega, by omega, fun j below above => ?_, ?_, fun start isSome => ?_⟩
        · rcases Nat.eq_or_lt_of_le below with rfl | later
          · exact same
          · exact agree j later above
        · rw [Nat.add_right_comm] at ends
          exact ends
        · rw [scanFew_agree same, lastSeparator_or]
          exact run start isSome

/-- Where the scan stops: the inputs agree up to there, and there one of them ends or two
of them differ. -/
structure Stops (first : Bytes) (rest : List Bytes) (index : Nat) : Prop where
  positive : 0 < index
  inside : ∀ t ∈ first :: rest, index ≤ t.length
  agree : ∀ t ∈ first :: rest, ∀ j, j < index → t[j]? = first[j]?
  ends : (∃ t ∈ first :: rest, t.length = index) ∨
    (∀ t ∈ first :: rest, index < t.length) ∧ ∃ t ∈ rest, first[index]? ≠ t[index]?

theorem IsPlain.head {t : Bytes} (plain : IsPlain t) : t[0]? = some sepPosix := by
  have absolute := plain.absolute
  unfold isAbsolute at absolute
  rw [← List.head?_eq_getElem?]
  exact of_decide_eq_true absolute

theorem IsPlain.isSeparator {t : Bytes} (p : Platform) (plain : IsPlain t) (i : Nat) :
    (t[i]?).any p.isSeparator = true ↔ t[i]? = some sepPosix := by
  cases byte : t[i]? with
  | none => simp
  | some c =>
      have notBackslash : c ≠ 0x5c := fun same =>
        plain.noBackslash (same ▸ List.mem_of_getElem? byte)
      cases p <;> simp [Platform.isSeparator, notBackslash]

theorem scan_plain (p : Platform) (few : (first :: rest).length ≤ 8)
    (plain : ∀ t ∈ first :: rest, IsPlain t) :
    ∃ index last, Stops first rest index ∧ lastSeparator p first index = some last ∧
      ∀ start, scan p (first :: rest) first start = .found index (some last) := by
  have plainFirst := plain first List.mem_cons_self
  obtain ⟨least, isLeast, attained⟩ := minLength_attained first rest
  have positive : 0 < minLength (first :: rest) := by
    rw [attained]
    exact (List.getElem?_eq_some_iff.mp (plain least isLeast).head).1
  have agreeAtZero : nqlAtIndex 0 (first :: rest) = false := by
    rw [nqlAtIndex_eq_false]
    intro t member
    rw [plainFirst.head, (plain t (List.mem_cons_of_mem first member)).head]
  obtain ⟨stop, _, high, agree, ends, run⟩ :=
    scanFew_spec p first rest (minLength (first :: rest)) 0
  rw [Nat.zero_add] at high ends
  have moved : 0 < stop := by
    apply Nat.pos_of_ne_zero
    rintro rfl
    rcases ends with same | differ
    · omega
    · rw [agreeAtZero] at differ
      cases differ
  have agreeAt (j : Nat) (below : j < stop) (t : Bytes) (member : t ∈ first :: rest) :
      t[j]? = first[j]? := by
    rcases List.mem_cons.mp member with rfl | later
    · rfl
    · exact (nqlAtIndex_eq_false.mp (agree j (Nat.zero_le j) below) t later).symm
  obtain ⟨last, isLast⟩ := Option.ne_none_iff_exists'.mp
    (lastSeparator_ne_none moved ((plainFirst.isSeparator p 0).mpr plainFirst.head))
  refine ⟨stop, last, ⟨moved, fun t member => Nat.le_trans high (minLength_le member),
    fun t member j below => agreeAt j below t member, ?_⟩, isLast, fun start => ?_⟩
  · rcases Nat.eq_or_lt_of_le high with same | less
    · exact .inl ⟨least, isLeast, by rw [same, attained]⟩
    · rcases ends with same | differ
      · omega
      · exact .inr ⟨fun t member => Nat.lt_of_lt_of_le less (minLength_le member),
          nqlAtIndex_eq_true.mp differ⟩
  · have ran := run start (by simp [isLast])
    rw [isLast] at ran
    unfold scan
    rw [if_pos few]
    exact ran

theorem separatorAfter_some {index : Nat} {input : List Bytes} {found : Option Bytes}
    {s : Bytes} (isAfter : separatorAfter p index input found = some s) :
    (found = some s ∨ s ∈ input ∧ (s[index]?).any p.isSeparator = true) ∧
      ∀ t ∈ input, ∀ c, t[index]? = some c → p.isSeparator c = true := by
  induction input generalizing found with
  | nil => exact ⟨.inl isAfter, fun t member => by cases member⟩
  | cons first input ih =>
      unfold separatorAfter at isAfter
      cases byte : first[index]? with
      | none =>
          rw [byte] at isAfter
          obtain ⟨isFound, all⟩ := ih isAfter
          refine ⟨isFound.imp_right fun later =>
            ⟨List.mem_cons_of_mem first later.1, later.2⟩, fun t member c isByte => ?_⟩
          rcases List.mem_cons.mp member with rfl | later
          · rw [byte] at isByte
            cases isByte
          · exact all t later c isByte
      | some b =>
          rw [byte] at isAfter
          dsimp only at isAfter
          split at isAfter
          · rename_i isSep
            obtain ⟨isFound, all⟩ := ih isAfter
            refine ⟨.inr ?_, fun t member c isByte => ?_⟩
            · rcases isFound with same | ⟨later, sep⟩
              · obtain rfl := Option.some.inj same
                exact ⟨List.mem_cons_self, by rw [byte]; exact isSep⟩
              · exact ⟨List.mem_cons_of_mem first later, sep⟩
            · rcases List.mem_cons.mp member with rfl | later
              · rw [byte] at isByte
                obtain rfl := Option.some.inj isByte
                exact isSep
              · exact all t later c isByte
          · cases isAfter

theorem separatorAfter_none {index : Nat} {input : List Bytes} {found : Option Bytes}
    (isAfter : separatorAfter p index input found = none) :
    (∃ t ∈ input, ∃ c, t[index]? = some c ∧ p.isSeparator c = false) ∨
      found = none ∧ ∀ t ∈ input, t[index]? = none := by
  induction input generalizing found with
  | nil => exact .inr ⟨isAfter, fun t member => by cases member⟩
  | cons first input ih =>
      unfold separatorAfter at isAfter
      cases byte : first[index]? with
      | none =>
          rw [byte] at isAfter
          rcases ih isAfter with ⟨t, member, other⟩ | ⟨noneYet, all⟩
          · exact .inl ⟨t, List.mem_cons_of_mem first member, other⟩
          · refine .inr ⟨noneYet, fun t member => ?_⟩
            rcases List.mem_cons.mp member with rfl | later
            · exact byte
            · exact all t later
      | some b =>
          rw [byte] at isAfter
          dsimp only at isAfter
          split at isAfter
          · rcases ih isAfter with ⟨t, member, other⟩ | ⟨noneYet, _⟩
            · exact .inl ⟨t, List.mem_cons_of_mem first member, other⟩
            · cases noneYet
          · rename_i notSep
            exact .inl ⟨first, List.mem_cons_self, b, byte, Bool.eq_false_iff.mpr notSep⟩

end

/-! ### The directory -/

/-- The paths as directories, but where they are all the same: nothing shows that the path
is a directory, so it counts for itself. -/
def directories (input : List Bytes) : List Bytes :=
  if ∀ s ∈ input, ∀ t ∈ input, s = t then input else input.map asDir

section

variable {p : Platform} {first : Bytes} {rest : List Bytes} {index last : Nat}

/-- The text up to the last separator begins every input. -/
theorem base_begins (stops : Stops first rest index)
    (isLast : lastSeparator p first index = some last) {t : Bytes}
    (member : t ∈ first :: rest) : first.take (last + 1) <+: t := by
  have below := (lastSeparator_some isLast).1
  have agree : first.take (last + 1) = t.take (last + 1) :=
    take_eq_of_agree fun j less => (stops.agree t member j (by omega)).symm
  rw [agree]
  exact List.take_prefix _ _

theorem base_ends (plain : IsPlain first) (isLast : lastSeparator p first index = some last) :
    (first.take (last + 1)).getLast? = some sepPosix := by
  have isSep := (plain.isSeparator p last).mp (lastSeparator_some isLast).2.1
  rw [take_succ_eq isSep, List.getLast?_append, List.getLast?_singleton]
  rfl

/-- A directory that ends where the inputs agree ends at a separator, so not behind the
last one. -/
theorem short_of_agree (plain : IsPlain first)
    (isLast : lastSeparator p first index = some last) {e : Bytes}
    (ends : e.getLast? = some sepPosix)
    (agree : ∀ j, j < e.length → j < index → e[j]? = first[j]?) (short : e.length ≤ index) :
    e.length ≤ (first.take (last + 1)).length := by
  obtain ⟨below, isSep, none⟩ := lastSeparator_some isLast
  have inside : last < first.length :=
    (List.getElem?_eq_some_iff.mp ((plain.isSeparator p last).mp isSep)).1
  have nonempty : e ≠ [] := by
    rintro rfl
    cases ends
  have positive := List.length_pos_of_ne_nil nonempty
  rw [List.length_take]
  by_contra longer
  have notSep := none (e.length - 1) (by omega) (by omega)
  have byte : first[e.length - 1]? = some sepPosix := by
    rw [← agree _ (by omega) (by omega), ← List.getLast?_eq_getElem?, ends]
  rw [(plain.isSeparator p _).mpr byte] at notSep
  cases notSep

/-- A common directory agrees with the inputs where these agree. -/
theorem dir_agree {texts : List Bytes} {e t : Bytes} (isDir : IsCommonDir texts e)
    (member : t ∈ texts) {j : Nat} (inside : j < e.length) : t[j]? = e[j]? :=
  prefix_getElem? (isDir.2 t member) inside

theorem asDir_getElem? {t : Bytes} {j : Nat} (inside : j < t.length) :
    (asDir t)[j]? = t[j]? :=
  List.getElem?_append_left inside

theorem asDir_last (t : Bytes) : (asDir t)[t.length]? = some sepPosix := by
  simp [asDir]

/-- Where an input goes on with another byte than `/`, no directory reaches further than
the agreement. -/
theorem dir_short (stops : Stops first rest index)
    (stuck : ∃ t ∈ first :: rest, ∃ c, t[index]? = some c ∧ c ≠ sepPosix) {e : Bytes} (isDir : IsCommonDir ((first :: rest).map asDir) e) : e.length ≤ index := by
  by_contra longer
  have reach : index < e.length := Nat.lt_of_not_le longer
  have same {t : Bytes} (member : t ∈ first :: rest) : (asDir t)[index]? = e[index]? :=
    dir_agree isDir (List.mem_map_of_mem member) reach
  rcases stops.ends with ⟨q, isQ, ended⟩ | ⟨further, t, isT, differ⟩
  · have sep : e[index]? = some sepPosix := by
      rw [← same isQ, ← ended]
      exact asDir_last q
    obtain ⟨t, member, c, byte, notSep⟩ := stuck
    have here := same member
    rw [asDir_getElem? (List.getElem?_eq_some_iff.mp byte).1, byte, sep] at here
    exact notSep (Option.some.inj here)
  · have one := same List.mem_cons_self
    have two := same (List.mem_cons_of_mem first isT)
    rw [asDir_getElem? (further first List.mem_cons_self)] at one
    rw [asDir_getElem? (further t (List.mem_cons_of_mem first isT))] at two
    exact differ (one.trans two.symm)

/-- The text up to the last separator is the directory where an input goes on otherwise. -/
theorem base_longest (plain : ∀ t ∈ first :: rest, IsPlain t) (stops : Stops first rest index)
    (isLast : lastSeparator p first index = some last)
    (stuck : ∃ t ∈ first :: rest, ∃ c, t[index]? = some c ∧ c ≠ sepPosix) :
    IsLongestDir ((first :: rest).map asDir) (first.take (last + 1)) := by
  have plainFirst := plain first List.mem_cons_self
  refine ⟨⟨base_ends plainFirst isLast, fun t member => ?_⟩, fun e isDir => ?_⟩
  · obtain ⟨s, isInput, rfl⟩ := List.mem_map.mp member
    exact (base_begins stops isLast isInput).trans (List.prefix_append s _)
  · have short := dir_short stops stuck isDir
    apply short_of_agree plainFirst isLast isDir.1 _ short
    intro j inside below
    have inFirst := stops.inside first List.mem_cons_self
    rw [← dir_agree isDir (List.mem_map_of_mem List.mem_cons_self) inside,
      asDir_getElem? (by omega)]

/-- The same where all paths are one. -/
theorem base_longest_single (plain : IsPlain first) (stops : Stops first rest index)
    (isLast : lastSeparator p first index = some last)
    (single : ∀ t ∈ first :: rest, t = first) :
    IsLongestDir (first :: rest) (first.take (last + 1)) := by
  refine ⟨⟨base_ends plain isLast, fun t => base_begins stops isLast⟩, fun e isDir => ?_⟩
  have whole : first.length = index := by
    rcases stops.ends with ⟨q, isQ, ended⟩ | ⟨_, t, isT, differ⟩
    · rw [← single q isQ, ended]
    · exact absurd (by rw [single t (List.mem_cons_of_mem first isT)]) differ
  have short := (isDir.2 first List.mem_cons_self).length_le
  apply short_of_agree plain isLast isDir.1 _ (by omega)
  intro j inside _
  exact (dir_agree isDir List.mem_cons_self inside).symm

/-- Where an input goes on with `/` and none goes on otherwise, the agreement is a directory
of all. -/
theorem extended_longest (stops : Stops first rest index)
    (noOther : ∀ t ∈ first :: rest, ∀ c, t[index]? = some c → c = sepPosix) {s : Bytes}
    (member : s ∈ first :: rest) (isSep : s[index]? = some sepPosix) :
    IsLongestDir ((first :: rest).map asDir) (s.take (index + 1)) := by
  have agreeTake {t : Bytes} (isInput : t ∈ first :: rest) : s.take index = t.take index :=
    take_eq_of_agree fun j below => by
      rw [stops.agree s member j below, stops.agree t isInput j below]
  have extended : s.take (index + 1) = s.take index ++ [sepPosix] := take_succ_eq isSep
  have length : (s.take (index + 1)).length = index + 1 := by
    have inside := (List.getElem?_eq_some_iff.mp isSep).1
    rw [List.length_take]
    omega
  refine ⟨⟨?_, fun t isDirectory => ?_⟩, fun e isDir => ?_⟩
  · rw [extended, List.getLast?_append, List.getLast?_singleton]
    rfl
  · obtain ⟨u, isInput, rfl⟩ := List.mem_map.mp isDirectory
    rw [extended, agreeTake isInput]
    cases byte : u[index]? with
    | none =>
        have whole : u.take index = u := List.take_of_length_le (List.getElem?_eq_none_iff.mp byte)
        rw [whole]
        exact List.prefix_refl _
    | some c =>
        rw [← noOther u isInput c byte, ← take_succ_eq byte]
        exact (List.take_prefix _ u).trans (List.prefix_append u _)
  · rw [length]
    rcases stops.ends with ⟨q, isQ, ended⟩ | ⟨further, t, isT, differ⟩
    · have reach := (isDir.2 _ (List.mem_map_of_mem isQ)).length_le
      rw [asDir, List.length_append, List.length_singleton, ended] at reach
      exact reach
    · -- two inputs that differ cannot both go on with `/`
      have isByte {u : Bytes} (isInput : u ∈ first :: rest) : u[index]? = some sepPosix := by
        have here := List.getElem?_eq_getElem (further u isInput)
        rw [here, noOther u isInput _ here]
      exact absurd ((isByte List.mem_cons_self).trans
        (isByte (List.mem_cons_of_mem first isT)).symm) differ

/-- An input that goes on behind the agreement is not the only one. -/
theorem directories_of_byte (stops : Stops first rest index)
    (goesOn : ∃ t ∈ first :: rest, ∃ c, t[index]? = some c) :
    directories (first :: rest) = (first :: rest).map asDir := by
  obtain ⟨t, member, c, byte⟩ := goesOn
  apply if_neg
  intro single
  rcases stops.ends with ⟨q, isQ, ended⟩ | ⟨_, u, isU, differ⟩
  · have inside := (List.getElem?_eq_some_iff.mp byte).1
    rw [single t member q isQ] at inside
    omega
  · exact differ (by rw [single first List.mem_cons_self u (List.mem_cons_of_mem first isU)])

theorem single_of_ended (stops : Stops first rest index)
    (ended : ∀ t ∈ first :: rest, t[index]? = none) : ∀ t ∈ first :: rest, t = first := by
  have whole {t : Bytes} (member : t ∈ first :: rest) : t.take index = t :=
    List.take_of_length_le (List.getElem?_eq_none_iff.mp (ended t member))
  intro t member
  rw [← whole member, ← whole List.mem_cons_self]
  exact take_eq_of_agree (stops.agree t member)

theorem directories_of_single (single : ∀ t ∈ first :: rest, t = first) :
    directories (first :: rest) = first :: rest :=
  if_pos fun s isS t isT => (single s isS).trans (single t isT).symm

/-- Nothing goes on with `/`: the text up to the last separator. -/
theorem longest_of_noSeparator (plain : ∀ t ∈ first :: rest, IsPlain t)
    (stops : Stops first rest index) (isLast : lastSeparator p first index = some last)
    (noSep : (∃ t ∈ first :: rest, ∃ c, t[index]? = some c ∧ c ≠ sepPosix) ∨
      ∀ t ∈ first :: rest, t[index]? = none) :
    IsLongestDir (directories (first :: rest)) (first.take (last + 1)) := by
  rcases noSep with stuck | ended
  · have goesOn : ∃ t ∈ first :: rest, ∃ c, t[index]? = some c := by
      obtain ⟨t, member, c, byte, _⟩ := stuck
      exact ⟨t, member, c, byte⟩
    rw [directories_of_byte stops goesOn]
    exact base_longest plain stops isLast stuck
  · have single := single_of_ended stops ended
    rw [directories_of_single single]
    exact base_longest_single (plain first List.mem_cons_self) stops isLast single

theorem longest_few {second : Bytes} {more : List Bytes} (p : Platform)
    (few : (first :: second :: more).length ≤ 8)
    (plain : ∀ t ∈ first :: second :: more, IsPlain t) :
    ∃ d, IsLongestDir (directories (first :: second :: more)) d ∧
      longestCommonPathGeneric p (first :: second :: more) = some d := by
  obtain ⟨index, last, stops, isLast, isScan⟩ := scan_plain p few plain
  unfold longestCommonPathGeneric
  dsimp only
  rw [isScan]
  dsimp only
  rw [if_neg (Nat.ne_of_gt stops.positive)]
  have isSep {t : Bytes} (member : t ∈ first :: second :: more) {c : UInt8}
      (byte : t[index]? = some c) : p.isSeparator c = true ↔ c = sepPosix := by
    have both := (plain t member).isSeparator p index
    rw [byte] at both
    simpa using both
  cases isAfter : separatorAfter p index (first :: second :: more) none with
  | some s =>
      obtain ⟨found, all⟩ := separatorAfter_some isAfter
      rcases found with same | ⟨member, here⟩
      · cases same
      have sep := ((plain s member).isSeparator p index).mp here
      refine ⟨s.take (index + 1), ?_, rfl⟩
      rw [directories_of_byte stops ⟨s, member, sepPosix, sep⟩]
      exact extended_longest stops
        (fun t isInput c byte => (isSep isInput byte).mp (all t isInput c byte)) member sep
  | none =>
      refine ⟨first.take (last + 1), longest_of_noSeparator plain stops isLast ?_, rfl⟩
      rcases separatorAfter_none isAfter with ⟨t, member, c, byte, notSep⟩ | ⟨_, ended⟩
      · refine .inl ⟨t, member, c, byte, fun same => ?_⟩
        rw [(isSep member byte).mpr same] at notSep
        cases notSep
      · exact .inr ended

/-- The other function looks at the first input that goes on with `/` only. -/
theorem getIfExists_few {second : Bytes} {more : List Bytes} (p : Platform)
    (few : (first :: second :: more).length ≤ 8)
    (plain : ∀ t ∈ first :: second :: more, IsPlain t)
    (noConflict : ¬Conflict (first :: second :: more)) :
    ∃ d, IsLongestDir (directories (first :: second :: more)) d ∧
      getIfExistsLongestCommonPathGeneric p (first :: second :: more) = some (some d) := by
  obtain ⟨index, last, stops, isLast, isScan⟩ := scan_plain p few plain
  unfold getIfExistsLongestCommonPathGeneric
  dsimp only
  rw [isScan]
  dsimp only
  rw [if_neg (Nat.ne_of_gt stops.positive)]
  have begins {t : Bytes} (member : t ∈ first :: second :: more) :
      t.take index = first.take index := take_eq_of_agree (stops.agree t member)
  cases isFind : (first :: second :: more).find? fun s =>
      (s[index]?).any p.isSeparator with
  | some s =>
      have member := List.mem_of_find?_eq_some isFind
      have here := List.find?_some isFind
      have sep := ((plain s member).isSeparator p index).mp here
      refine ⟨s.take (index + 1), ?_, rfl⟩
      rw [directories_of_byte stops ⟨s, member, sepPosix, sep⟩]
      refine extended_longest stops (fun t isInput c byte => ?_) member sep
      by_contra notSep
      refine noConflict ⟨first.take index, c, notSep, fun u isU => ?_, ⟨s, member, ?_⟩,
        t, isInput, ?_⟩
      · rw [← begins isU]
        exact List.take_prefix _ _
      · rw [← begins member, ← take_succ_eq sep]
        exact List.take_prefix _ _
      · rw [← begins isInput, ← take_succ_eq byte]
        exact List.take_prefix _ _
  | none =>
      have noSep := List.find?_eq_none.mp isFind
      refine ⟨first.take (last + 1), longest_of_noSeparator plain stops isLast ?_, rfl⟩
      by_cases goesOn : ∃ t ∈ first :: second :: more, ∃ c, t[index]? = some c
      · obtain ⟨t, member, c, byte⟩ := goesOn
        refine .inl ⟨t, member, c, byte, fun same => noSep t member ?_⟩
        rw [(plain t member).isSeparator p index, byte, same]
      · refine .inr fun t member => ?_
        cases byte : t[index]? with
        | none => rfl
        | some c => exact absurd ⟨t, member, c, byte⟩ goesOn

end

theorem mem_directories_of_perm {input others : List Bytes} (perm : others.Perm input)
    (t : Bytes) : t ∈ directories others ↔ t ∈ directories input := by
  have sameCondition : (∀ s ∈ others, ∀ u ∈ others, s = u) ↔ ∀ s ∈ input, ∀ u ∈ input, s = u := by
    simp only [perm.mem_iff]
  unfold directories
  by_cases single : ∀ s ∈ input, ∀ u ∈ input, s = u
  · rw [if_pos single, if_pos (sameCondition.mpr single), perm.mem_iff]
  · rw [if_neg single, if_neg (mt sameCondition.mp single), List.mem_map, List.mem_map]
    simp only [perm.mem_iff]

theorem directories_ne_nil {input : List Bytes} (nonempty : input ≠ []) :
    directories input ≠ [] := by
  unfold directories
  split
  · exact nonempty
  · simpa using nonempty

theorem Conflict.of_perm {input others : List Bytes} (perm : others.Perm input)
    (conflict : Conflict others) : Conflict input := by
  unfold Conflict at *
  simpa only [perm.mem_iff] using conflict

theorem two_cons {input : List Bytes} (two : 2 ≤ input.length) :
    ∃ first second more, input = first :: second :: more := by
  match input, two with
  | first :: second :: more, _ => exact ⟨first, second, more, rfl⟩

/-- For two to eight absolute paths in any order, both functions give the longest directory
of all, and the second one unless two paths go on differently behind what is common. -/
theorem common_directory (input : List Bytes) (two : 2 ≤ input.length)
    (few : input.length ≤ 8) (plain : ∀ t ∈ input, IsPlain t) :
    ∃ d, IsLongestDir (directories input) d ∧
      (∀ others, others.Perm input → longestCommonPath others = some d) ∧
      (¬Conflict input → ∀ others, others.Perm input →
        getIfExistsLongestCommonPath others = some (some d)) := by
  obtain ⟨first, second, more, rfl⟩ := two_cons two
  obtain ⟨d, isLongest, _⟩ := longest_few .loose few plain
  obtain ⟨t, isDirectory⟩ := List.exists_mem_of_ne_nil _
    (directories_ne_nil (List.cons_ne_nil first (second :: more)))
  -- the directory of a reordered list is the same
  have same {others : List Bytes} (perm : others.Perm (first :: second :: more)) {e : Bytes}
      (longest : IsLongestDir (directories others) e) : e = d :=
    (longest.congr (mem_directories_of_perm perm)).unique isDirectory isLongest
  refine ⟨d, isLongest, fun others perm => ?_, fun noConflict others perm => ?_⟩
  · obtain ⟨f, s, m, rfl⟩ := two_cons (perm.length_eq ▸ two)
    obtain ⟨e, longest, result⟩ := longest_few .loose (perm.length_eq ▸ few)
      fun t member => plain t (perm.mem_iff.mp member)
    rw [← same perm longest]
    exact result
  · obtain ⟨f, s, m, rfl⟩ := two_cons (perm.length_eq ▸ two)
    obtain ⟨e, longest, result⟩ := getIfExists_few .loose (perm.length_eq ▸ few)
      (fun t member => plain t (perm.mem_iff.mp member))
      (mt (Conflict.of_perm perm) noConflict)
    rw [← same perm longest]
    exact result

/-- `/a/b`, `/a` and `/a`. -/
theorem common_directory_sample :
    ∃ d, IsLongestDir (directories [[0x2f, 97, 0x2f, 98], [0x2f, 97], [0x2f, 97]]) d ∧
      (∀ others, others.Perm [[0x2f, 97, 0x2f, 98], [0x2f, 97], [0x2f, 97]] →
        longestCommonPath others = some d) ∧
      (¬Conflict [[0x2f, 97, 0x2f, 98], [0x2f, 97], [0x2f, 97]] →
        ∀ others, others.Perm [[0x2f, 97, 0x2f, 98], [0x2f, 97], [0x2f, 97]] →
          getIfExistsLongestCommonPath others = some (some d)) :=
  common_directory [[0x2f, 97, 0x2f, 98], [0x2f, 97], [0x2f, 97]] (by decide) (by decide)
    fun t member => by
      simp only [List.mem_cons, List.not_mem_nil, or_false] at member
      rcases member with rfl | rfl | rfl <;> exact ⟨rfl, by decide⟩

/-- Two times `/a`: the result is `/` and not `/a/`. -/
theorem same_paths_disagree :
    longestCommonPath [[0x2f, 97], [0x2f, 97]] = some [0x2f] ∧
      ¬IsLongestDir ([[0x2f, 97], [0x2f, 97]].map asDir) [0x2f] := by
  refine ⟨by decide, fun longest => ?_⟩
  have longer := longest.2 [0x2f, 97, 0x2f] ⟨rfl, by decide⟩
  exact absurd longer (by decide)

-- More than eight inputs: `/a/1` to `/a/9` have `/` for a common directory.
example : longestCommonPath ((List.range 9).map fun i => [0x2f, 97, 0x2f, 49 + UInt8.ofNat i])
    = some [0x2f] := by decide

-- `/a/b` and `/ab`: the first one goes on with `/` behind `/a`.
example : getIfExistsLongestCommonPath [[0x2f, 97, 0x2f, 98], [0x2f, 97, 98]]
    = some (some [0x2f, 97, 0x2f]) := by decide

end Bunx.Paths
