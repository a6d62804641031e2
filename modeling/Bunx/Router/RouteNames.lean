/-
Module: Bunx.Router.RouteNames
Purpose: The names of routes, made of segments, and how they are read.
Trusted boundary: none
Main exports: Segment, Ending, Route, Route.text, init_static, init_dynamic,
  init_catchAll, init_optionalCatchAll
-/
import Bunx.Lib.Segments
import Bunx.Router.Pattern

namespace Bunx.Router

open Lib

/-! ### Segments -/

inductive Segment where
  | static (text : Text)
  | dynamic (name : Text)
deriving DecidableEq

def Segment.text : Segment → Text
  | .static text => text
  | .dynamic name => openBracket :: name ++ [closeBracket]

/-- Bytes that are not used to write patterns. -/
def isPlain (c : UInt8) : Bool := c ≠ slash && c ≠ openBracket && c ≠ closeBracket

def isUpper (c : UInt8) : Bool := 0x41 ≤ c && c ≤ 0x5A

/-- ASCII letters in lower case. -/
def toLower (c : UInt8) : UInt8 := if isUpper c then c + 0x20 else c

structure IsName (name : Text) : Prop where
  nonempty : name ≠ []
  plain : ∀ c ∈ name, isPlain c = true

/-- Static text is in lower case; a parameter does not begin with a dot. -/
def Segment.IsValid : Segment → Prop
  | .static text => IsName text ∧ ∀ c ∈ text, isUpper c = false
  | .dynamic name => IsName name ∧ name.head? ≠ some dot

inductive Ending where
  | nothing
  | catchAll (name : Text)
  | optionalCatchAll (name : Text)
deriving DecidableEq

def Ending.texts : Ending → List Text
  | .nothing => []
  | .catchAll name => [openBracket :: dot :: dot :: dot :: name ++ [closeBracket]]
  | .optionalCatchAll name =>
      [openBracket :: openBracket :: dot :: dot :: dot :: name ++ [closeBracket, closeBracket]]

def Ending.IsValid : Ending → Prop
  | .nothing => True
  | .catchAll name => IsName name
  | .optionalCatchAll name => IsName name

/-- A route, as its name has it. -/
structure Route where
  fixed : List Segment
  ending : Ending
  fixedValid : ∀ segment ∈ fixed, segment.IsValid
  endingValid : ending.IsValid
  nonempty : fixed ≠ [] ∨ ending ≠ .nothing

/-- The name of segments, without a leading slash. -/
def textOf (fixed : List Segment) (ending : Ending) : Text :=
  joinWith slash (fixed.map Segment.text ++ ending.texts)

def Route.text (route : Route) : Text := textOf route.fixed route.ending

section Lower

theorem toLower_plain {c : UInt8} (plain : isPlain c = true) : isPlain (toLower c) = true := by
  have all : ∀ n : Fin 256, isPlain (UInt8.ofNat n) = true →
      isPlain (toLower (UInt8.ofNat n)) = true := by decide +kernel
  have byte := all ⟨c.toNat, c.toNat_lt⟩
  simp only [UInt8.ofNat_toNat] at byte
  exact byte plain

theorem toLower_eq_dot {c : UInt8} : toLower c = dot ↔ c = dot := by
  have all : ∀ n : Fin 256, toLower (UInt8.ofNat n) = dot ↔ UInt8.ofNat n = dot := by
    decide +kernel
  have byte := all ⟨c.toNat, c.toNat_lt⟩
  simp only [UInt8.ofNat_toNat] at byte
  exact byte

theorem IsName.lower {name : Text} (isName : IsName name) : IsName (name.map toLower) := by
  refine ⟨by simpa using isName.nonempty, ?_⟩
  intro c member
  obtain ⟨d, isIn, rfl⟩ := List.mem_map.mp member
  exact toLower_plain (isName.plain d isIn)

theorem lower_eq {text : Text} (lower : ∀ c ∈ text, isUpper c = false) :
    text.map toLower = text := by
  conv_rhs => rw [← List.map_id text]
  apply List.map_congr_left
  intro c member
  rw [toLower, lower c member]
  rfl

def Segment.lower : Segment → Segment
  | .static text => .static text
  | .dynamic name => .dynamic (name.map toLower)

def Ending.lower : Ending → Ending
  | .nothing => .nothing
  | .catchAll name => .catchAll (name.map toLower)
  | .optionalCatchAll name => .optionalCatchAll (name.map toLower)

theorem Segment.IsValid.lower {segment : Segment} (valid : segment.IsValid) :
    segment.lower.IsValid := by
  cases segment with
  | static text => exact valid
  | dynamic name =>
      refine ⟨valid.1.lower, ?_⟩
      intro isDot
      rw [List.head?_map, Option.map_eq_some_iff] at isDot
      obtain ⟨c, isHead, isDot⟩ := isDot
      exact valid.2 (isHead.trans (congrArg some (toLower_eq_dot.mp isDot)))

theorem Segment.lower_text {segment : Segment} (valid : segment.IsValid) :
    segment.lower.text = segment.text.map toLower := by
  cases segment with
  | static text => exact (lower_eq valid.2).symm
  | dynamic name =>
      simp only [Segment.lower, Segment.text, List.map_cons, List.map_append, List.map_nil]
      rfl

end Lower

/-! ### Reading segments -/

section Reading

variable {hash : Text → Nat} {doHash : Bool} {front text name rest : Text}

theorem plain_ne {c : UInt8} (plain : isPlain c = true) :
    c ≠ slash ∧ c ≠ openBracket ∧ c ≠ closeBracket := by
  simpa [isPlain, and_assoc] using plain

/-- What is read at the beginning of a segment of which more than one byte is left. -/
theorem initMaybeHash_segment {c : UInt8} {behind : Text} (notSlash : c ≠ slash)
    (more : behind ≠ []) :
    Pattern.initMaybeHash hash doHash (front ++ c :: behind) front.length =
      let last := (front ++ c :: behind).length - 1
      let text := (c :: behind).takeWhile fun c => c ≠ slash && c ≠ openBracket
      let i := front.length + text.length
      match (front ++ c :: behind)[i]? with
      | some d =>
          if d = slash then
            .ok { value := .static (if doHash then HashedString.init hash text
                    else HashedString.initNoHash text), len := min (i + 1) last }
          else if i > front.length then
            .ok { value := .static (if doHash then HashedString.init hash text
                    else HashedString.initNoHash text), len := i }
          else do
            let (tag, start) ← Pattern.kind (front ++ c :: behind) (i + 1)
            Pattern.parameter (front ++ c :: behind) tag start
      | none => .ok { value := .static (HashedString.init hash text), len := i } := by
  have noSlashes : ((front ++ c :: behind).drop front.length).takeWhile (· = slash) = [] := by
    rw [List.drop_left, List.takeWhile_cons_of_neg (by simpa using notSlash)]
  have positive : 0 < behind.length := List.length_pos_iff.mpr more
  have lengths : (front ++ c :: behind).length = front.length + behind.length + 1 := by
    rw [List.length_append, List.length_cons]
    omega
  have inside : ¬(front ++ c :: behind = [] ∨ (front ++ c :: behind).length ≤ front.length) := by
    rintro (isNil | short)
    · rw [isNil, List.length_nil] at lengths
      omega
    · omega
  unfold Pattern.initMaybeHash
  rw [noSlashes]
  dsimp only
  rw [List.length_nil, Nat.add_zero, if_neg inside, if_neg (by omega), List.drop_left]
  cases doHash with
  | false => rfl
  | true => rfl

theorem takeWhile_static (plain : ∀ c ∈ text, isPlain c = true) (rest : Text)
    (stops : ∀ c ∈ rest.head?, c = slash ∨ c = openBracket) :
    (text ++ rest).takeWhile (fun c => c ≠ slash && c ≠ openBracket) = text := by
  have stopsHere : rest.takeWhile (fun c => c ≠ slash && c ≠ openBracket) = [] := by
    cases rest with
    | nil => rfl
    | cons c rest =>
        apply List.takeWhile_cons_of_neg
        rcases stops c rfl with rfl | rfl
        · simp
        · simp
  rw [List.takeWhile_append_of_pos, stopsHere, List.append_nil]
  intro c member
  obtain ⟨notSlash, notOpen, _⟩ := plain_ne (plain c member)
  simp [notSlash, notOpen]

/-- Static text in front of another segment. -/
theorem init_static (isName : IsName text) (more : rest ≠ []) :
    Pattern.init hash (front ++ (text ++ slash :: rest)) front.length =
      .ok { value := .static (.init hash text), len := front.length + text.length + 1 } := by
  cases text with
  | nil => exact absurd rfl isName.nonempty
  | cons c text =>
      have notSlash := (plain_ne (isName.plain c (List.mem_cons_self ..))).1
      have taken := takeWhile_static isName.plain (slash :: rest) (by simp)
      have positive : 0 < rest.length := List.length_pos_iff.mpr more
      have atSlash : (front ++ c :: (text ++ slash :: rest))[front.length + (c :: text).length]? =
          some slash := by
        rw [List.getElem?_append_right (Nat.le_add_right _ _), Nat.add_sub_cancel_left,
          ← List.cons_append, List.getElem?_append_right (Nat.le_refl _), Nat.sub_self]
        rfl
      rw [List.cons_append] at taken ⊢
      rw [Pattern.init, initMaybeHash_segment notSlash (by simp)]
      dsimp only
      rw [taken, atSlash]
      dsimp only
      rw [if_pos rfl, if_pos rfl, Nat.min_eq_left]
      simp only [List.length_append, List.length_cons]
      omega

/-- Static text at the end of a name. A single byte is not read. -/
theorem init_static_last (isName : IsName text) :
    Pattern.init hash (front ++ text) front.length =
      .ok
        (if text.length = 1 then { value := .static .empty, len := front.length }
        else { value := .static (.init hash text), len := (front ++ text).length }) := by
  cases text with
  | nil => exact absurd rfl isName.nonempty
  | cons c text =>
      have notSlash := (plain_ne (isName.plain c (List.mem_cons_self ..))).1
      cases text with
      | nil =>
          have noSlashes : ((front ++ [c]).drop front.length).takeWhile (· = slash) = [] := by
            rw [List.drop_left, List.takeWhile_cons_of_neg (by simpa using notSlash)]
          unfold Pattern.init Pattern.initMaybeHash
          rw [noSlashes]
          simp
      | cons d text =>
          have taken := takeWhile_static isName.plain [] (by simp)
          have atEnd : (front ++ c :: d :: text)[front.length + (c :: d :: text).length]? = none :=
            List.getElem?_eq_none (Nat.le_of_eq List.length_append)
          have several : ¬(c :: d :: text).length = 1 := by
            simp only [List.length_cons]
            omega
          rw [List.append_nil] at taken
          rw [Pattern.init, initMaybeHash_segment notSlash (List.cons_ne_nil _ _), if_neg several,
            List.length_append]
          dsimp only
          rw [taken, atEnd]

theorem init_bracket {behind : Text} (more : behind ≠ []) :
    Pattern.init hash (front ++ openBracket :: behind) front.length =
      (do
        let (tag, start) ← Pattern.kind (front ++ openBracket :: behind) (front.length + 1)
        Pattern.parameter (front ++ openBracket :: behind) tag start) := by
  have noText : (openBracket :: behind).takeWhile (fun c => c ≠ slash && c ≠ openBracket) = [] :=
    List.takeWhile_cons_of_neg (by simp)
  have atBracket : (front ++ openBracket :: behind)[front.length]? = some openBracket := by
    rw [List.getElem?_append_right (Nat.le_refl _), Nat.sub_self]
    rfl
  rw [Pattern.init, initMaybeHash_segment (by decide) more]
  dsimp only
  rw [noText, List.length_nil, Nat.add_zero, atBracket]
  dsimp only
  rw [if_neg (by decide), if_neg (Nat.lt_irrefl _)]

/-- A parameter is read up to its bracket. -/
theorem parameter_inside {tag : Tag} (isName : IsName name) :
    Pattern.parameter (front ++ (name ++ closeBracket :: rest)) tag front.length =
      (let last := (front ++ (name ++ closeBracket :: rest)).length - 1
      let i := front.length + name.length + 1
      let param : TinyPtr := { offset := front.length, len := name.length }
      if tag = .optionalCatchAll ∧ (i > last ∨ rest.head? ≠ some closeBracket) then
        .error .patternMissingClosingBracket
      else
        let i := if tag = .optionalCatchAll then i + 1 else i
        if tag.toNat > Tag.dynamic.toNat ∧ i ≤ last then .error .catchAllMustBeAtTheEnd
        else
          .ok
            { len := min (i + 1) last
              value :=
                match tag with
                | .catchAll => .catchAll param
                | .optionalCatchAll => .optionalCatchAll param
                | _ => .dynamic param }) := by
  cases name with
  | nil => exact absurd rfl isName.nonempty
  | cons b more =>
      have plain (c : UInt8) (member : c ∈ more) :=
        plain_ne (isName.plain c (List.mem_cons_of_mem _ member))
      have inside : ((front ++ (b :: more ++ closeBracket :: rest)).drop
          (front.length + 1)).takeWhile (· ≠ closeBracket) = more := by
        rw [List.drop_append, List.drop_eq_nil_of_le (Nat.le_succ _), Nat.add_sub_cancel_left,
          List.nil_append, List.cons_append, List.drop_succ_cons, List.drop_zero,
          List.takeWhile_append_of_pos fun c member => by simpa using (plain c member).2.2]
        simp
      have noSlash : slash ∉ more := fun member => (plain slash member).1 rfl
      have index : front.length + 1 + more.length = front.length + (b :: more).length := by
        rw [List.length_cons]
        omega
      have lengths : (front ++ (b :: more ++ closeBracket :: rest)).length =
          front.length + (b :: more).length + rest.length + 1 := by
        simp only [List.length_append, List.length_cons]
        omega
      have behind : (front ++ (b :: more ++ closeBracket :: rest))[
          front.length + (b :: more).length + 1]? = rest.head? := by
        rw [List.getElem?_append_right (by omega), List.getElem?_append_right (by omega),
          List.head?_eq_getElem?]
        have place :
            front.length + (b :: more).length + 1 - front.length - (b :: more).length = 1 := by
          omega
        rw [place]
        rfl
      unfold Pattern.parameter
      dsimp only
      rw [inside, if_neg noSlash, index, if_neg (by omega), Nat.add_sub_cancel_left]
      cases tag with
      | static => simp only [behind]
      | dynamic => simp only [behind]
      | catchAll => simp only [behind]
      | optionalCatchAll => simp only [behind]

theorem kind_at {front behind : Text} (c : UInt8) :
    (front ++ openBracket :: c :: behind)[front.length + 1]? = some c := by
  have one : front.length + 1 - front.length = 1 := by omega
  rw [List.getElem?_append_right (by omega), one]
  rfl

theorem drop_bracket {front behind : Text} (c : UInt8) :
    (front ++ openBracket :: c :: behind).drop (front.length + 1 + 1) = behind := by
  rw [List.drop_append, List.drop_eq_nil_of_le (by omega), List.nil_append]
  have two : front.length + 1 + 1 - front.length = 2 := by omega
  rw [two]
  rfl

theorem kind_dynamic {more : Text} {c : UInt8} (plain : isPlain c = true) (noDot : c ≠ dot)
    (some : more ≠ []) :
    Pattern.kind (front ++ openBracket :: c :: more) (front.length + 1) =
      .ok (.dynamic, front.length + 1) := by
  obtain ⟨notSlash, notOpen, notClose⟩ := plain_ne plain
  have positive : 0 < more.length := List.length_pos_iff.mpr some
  unfold Pattern.kind
  dsimp only
  rw [if_neg (by simp only [List.length_append, List.length_cons]; omega), kind_at]
  dsimp only
  rw [if_neg (by simp [notSlash, notClose]), if_neg notOpen, if_neg noDot]

/-- A parameter, with or without another segment behind it. -/
theorem init_param (isName : IsName name) (noDot : name.head? ≠ some dot) :
    Pattern.init hash (front ++ openBracket :: (name ++ closeBracket :: rest)) front.length =
      .ok
        { value := .dynamic { offset := front.length + 1, len := name.length }
          len := min (front.length + name.length + 3)
            ((front ++ openBracket :: (name ++ closeBracket :: rest)).length - 1) } := by
  have isKind : Pattern.kind (front ++ openBracket :: (name ++ closeBracket :: rest))
      (front.length + 1) = .ok (.dynamic, front.length + 1) := by
    cases name with
    | nil => exact absurd rfl isName.nonempty
    | cons c more =>
        have notDot : c ≠ dot := fun isDot => noDot (congrArg some isDot)
        exact kind_dynamic (isName.plain c (List.mem_cons_self ..)) notDot (by simp)
  have isText : front ++ openBracket :: (name ++ closeBracket :: rest) =
      front ++ [openBracket] ++ (name ++ closeBracket :: rest) := by simp
  have isLength : (front ++ [openBracket]).length = front.length + 1 := by simp
  rw [init_bracket (by simp), isKind]
  show Pattern.parameter _ .dynamic (front.length + 1) = _
  rw [isText, ← isLength, parameter_inside isName]
  have place : (front ++ [openBracket]).length + name.length + 1 + 1 =
      front.length + name.length + 3 := by omega
  have notCatchAll : ¬(Tag.dynamic = .optionalCatchAll) := by decide
  dsimp only
  rw [if_neg fun both => notCatchAll both.1, if_neg notCatchAll,
    if_neg fun both => Nat.lt_irrefl _ both.1, place]

/-- A parameter that takes the rest of the path. -/
theorem init_catchAll (isName : IsName name) :
    Pattern.init hash (front ++ openBracket :: dot :: dot :: dot :: (name ++ [closeBracket]))
        front.length =
      .ok
        { value := .catchAll { offset := front.length + 4, len := name.length }
          len := (front ++ openBracket :: dot :: dot :: dot ::
            (name ++ [closeBracket])).length - 1 } := by
  have positive : 0 < name.length := List.length_pos_iff.mpr isName.nonempty
  have isKind : Pattern.kind (front ++ openBracket :: dot :: dot :: dot ::
      (name ++ [closeBracket])) (front.length + 1) = .ok (.catchAll, front.length + 4) := by
    unfold Pattern.kind
    dsimp only
    rw [if_neg (by simp only [List.length_append, List.length_cons]; omega), kind_at]
    dsimp only
    rw [if_neg (by decide), if_neg (by decide), if_pos rfl,
      if_neg (by simp only [List.length_append, List.length_cons, List.length_nil]; omega),
      drop_bracket]
    rfl
  have isText : front ++ openBracket :: dot :: dot :: dot :: (name ++ [closeBracket]) =
      front ++ [openBracket, dot, dot, dot] ++ (name ++ closeBracket :: []) := by simp
  have isLength : (front ++ [openBracket, dot, dot, dot]).length = front.length + 4 := by simp
  rw [init_bracket (by simp), isKind]
  show Pattern.parameter _ .catchAll (front.length + 4) = _
  rw [isText, ← isLength, parameter_inside isName]
  have lengths : (front ++ [openBracket, dot, dot, dot] ++ (name ++ [closeBracket])).length =
      (front ++ [openBracket, dot, dot, dot]).length + name.length + 1 := by
    simp only [List.length_append, List.length_singleton]
    omega
  have notOptional : ¬(Tag.catchAll = .optionalCatchAll) := by decide
  dsimp only
  rw [if_neg fun both => notOptional both.1, if_neg notOptional, if_neg (by omega),
    Nat.min_eq_right (by omega)]

theorem init_optionalCatchAll (isName : IsName name) :
    Pattern.init hash (front ++ openBracket :: openBracket :: dot :: dot :: dot ::
        (name ++ [closeBracket, closeBracket])) front.length =
      .ok
        { value := .optionalCatchAll { offset := front.length + 5, len := name.length }
          len := (front ++ openBracket :: openBracket :: dot :: dot :: dot ::
            (name ++ [closeBracket, closeBracket])).length - 1 } := by
  have positive : 0 < name.length := List.length_pos_iff.mpr isName.nonempty
  have isKind : Pattern.kind (front ++ openBracket :: openBracket :: dot :: dot :: dot ::
      (name ++ [closeBracket, closeBracket])) (front.length + 1) =
        .ok (.optionalCatchAll, front.length + 5) := by
    unfold Pattern.kind
    dsimp only
    rw [if_neg (by simp only [List.length_append, List.length_cons]; omega), kind_at]
    dsimp only
    rw [if_neg (by decide), if_pos rfl,
      if_neg (by simp only [List.length_append, List.length_cons, List.length_nil]; omega),
      drop_bracket]
    rfl
  have isText : front ++ openBracket :: openBracket :: dot :: dot :: dot ::
      (name ++ [closeBracket, closeBracket]) =
      front ++ [openBracket, openBracket, dot, dot, dot] ++
        (name ++ closeBracket :: [closeBracket]) := by simp
  have isLength : (front ++ [openBracket, openBracket, dot, dot, dot]).length =
      front.length + 5 := by simp
  rw [init_bracket (by simp), isKind]
  show Pattern.parameter _ .optionalCatchAll (front.length + 5) = _
  rw [isText, ← isLength, parameter_inside isName]
  have lengths : (front ++ [openBracket, openBracket, dot, dot, dot] ++
      (name ++ [closeBracket, closeBracket])).length =
        (front ++ [openBracket, openBracket, dot, dot, dot]).length + name.length + 2 := by
    simp only [List.length_append, List.length_cons, List.length_nil]
    omega
  have isClosed : ¬(Tag.optionalCatchAll = .optionalCatchAll ∧
      ((front ++ [openBracket, openBracket, dot, dot, dot]).length + name.length + 1 >
        (front ++ [openBracket, openBracket, dot, dot, dot] ++
          (name ++ [closeBracket, closeBracket])).length - 1 ∨
        [closeBracket].head? ≠ some closeBracket)) := by
    rintro ⟨_, outside | notClosed⟩
    · omega
    · exact notClosed rfl
  dsimp only
  rw [if_neg isClosed, if_pos rfl, if_neg (by omega), Nat.min_eq_right (by omega)]

end Reading

end Bunx.Router
