/-
Module: Bunx.Semver.VersionOrder
Purpose: The two orders of versions are total preorders, and versions that differ in their build
  only satisfy the same comparators.
Trusted boundary: hashes are equal only for equal strings
Main exports: Stored.Version, Stored.Version.order, Stored.Version.orderWithoutBuild,
  order_totalPreorder, orderWithoutBuild_value
-/
import Bunx.Lib.TotalPreorder
import Bunx.Semver.Range
import Bunx.Semver.SemverString

namespace Bunx.Semver

open Std Bunx.Lib

/-! ### Versions as they are stored -/

namespace Stored

structure ExternalString where
  value : SemverString
  hash : UInt64

def ExternalString.isEmpty (s : ExternalString) : Bool := s.value.bytes == List.replicate 8 0

def ExternalString.slice (s : ExternalString) (buf : Bytes) : Bytes := s.value.slice buf

def ExternalString.order (lhs rhs : ExternalString) (lhsBuf rhsBuf : Bytes) : Ordering :=
  if lhs.hash = rhs.hash ∧ lhs.hash > 0 then .eq
  else Semver.order (lhs.slice lhsBuf) (rhs.slice rhsBuf)

structure Tag where
  pre : ExternalString
  build : ExternalString

namespace Tag

def hasPre (t : Tag) : Bool := !t.pre.isEmpty

def orderPre (lhs rhs : Tag) (lhsBuf rhsBuf : Bytes) : Ordering :=
  Semver.Tag.orderPreParts ((lhs.pre.slice lhsBuf).splitOn 0x2e)
    ((rhs.pre.slice rhsBuf).splitOn 0x2e)

def order (lhs rhs : Tag) (lhsBuf rhsBuf : Bytes) : Ordering :=
  if !lhs.pre.isEmpty && !rhs.pre.isEmpty then lhs.orderPre rhs lhsBuf rhsBuf
  else
    match lhs.pre.order rhs.pre lhsBuf rhsBuf with
    | .eq => lhs.build.order rhs.build lhsBuf rhsBuf
    | preOrder => preOrder

def orderWithoutBuild (lhs rhs : Tag) (lhsBuf rhsBuf : Bytes) : Ordering :=
  if !lhs.pre.isEmpty && !rhs.pre.isEmpty then lhs.orderPre rhs lhsBuf rhsBuf
  else lhs.pre.order rhs.pre lhsBuf rhsBuf

end Tag

structure Version where
  major : UInt64
  minor : UInt64
  patch : UInt64
  tag : Tag

namespace Version

def orderWithoutTag (lhs rhs : Version) : Ordering :=
  if lhs.major < rhs.major then .lt
  else if lhs.major > rhs.major then .gt
  else if lhs.minor < rhs.minor then .lt
  else if lhs.minor > rhs.minor then .gt
  else if lhs.patch < rhs.patch then .lt
  else if lhs.patch > rhs.patch then .gt
  else if lhs.tag.hasPre then
    if !rhs.tag.hasPre then .lt else .eq
  else if rhs.tag.hasPre then .gt
  else .eq

def order (lhs rhs : Version) (lhsBuf rhsBuf : Bytes) : Ordering :=
  match orderWithoutTag lhs rhs with
  | .eq => lhs.tag.order rhs.tag lhsBuf rhsBuf
  | notEqual => notEqual

def orderWithoutBuild (lhs rhs : Version) (lhsBuf rhsBuf : Bytes) : Ordering :=
  match orderWithoutTag lhs rhs with
  | .eq => lhs.tag.orderWithoutBuild rhs.tag lhsBuf rhsBuf
  | notEqual => notEqual

end Version

structure Comparator where
  op : Op
  version : Version

def Comparator.satisfies (c : Comparator) (version : Version) (comparatorBuf versionBuf : Bytes) :
    Bool :=
  match version.orderWithoutBuild c.version versionBuf comparatorBuf with
  | .eq => c.op == .lte || c.op == .gte || c.op == .eql
  | .gt => c.op == .gt || c.op == .gte
  | .lt => c.op == .lt || c.op == .lte

end Stored

/-! ### Keys -/

instance : TransCmp order :=
  TransOrd.compareOfLessAndEq_of_antisymm_of_trans_of_total_of_not_le List.le_antisymm
    List.le_trans List.le_total List.not_le

/-- A part of a prerelease that is not a number. -/
def textOf (part : Bytes) : Bytes := if (parseAscii part).isNone then part else []

/-- Numbers come before texts. -/
def partCmp : Bytes → Bytes → Ordering :=
  compareLex (compareOn fun part => (parseAscii part).isNone)
    (compareLex (compareOn fun part => (parseAscii part).getD 0)
      fun a b => order (textOf a) (textOf b))

instance transCmp_on {α β : Type} (cmp : β → β → Ordering) [TransCmp cmp] (f : α → β) :
    TransCmp fun a b => cmp (f a) (f b) where
  eq_swap := OrientedCmp.eq_swap
  isLE_trans := TransCmp.isLE_trans

instance : TransCmp partCmp := by
  unfold partCmp
  infer_instance

theorem orderPreParts_eq (lhs rhs : List Bytes) :
    Tag.orderPreParts lhs rhs = List.compareLex partCmp lhs rhs := by
  induction lhs generalizing rhs with
  | nil => cases rhs <;> rfl
  | cons l lhs ih =>
      cases rhs with
      | nil => rfl
      | cons r rhs =>
          unfold Tag.orderPreParts
          rw [List.compareLex_cons_cons, ← ih]
          simp only [partCmp, compareLex, compareOn, textOf]
          cases parseAscii l with
          | none =>
              cases parseAscii r with
              | none =>
                  simp only [Option.isNone_none, Option.getD_none, if_true]
                  cases order l r <;> rfl
              | some n => rfl
          | some m =>
              cases parseAscii r with
              | none => rfl
              | some n =>
                  simp only [Option.isNone_some, Option.getD_some, Bool.false_eq_true, if_false,
                    ReflCmp.compare_self]
                  cases compare m n <;> rfl

/-- What the orders look at. -/
structure VersionKey where
  major : UInt64
  minor : UInt64
  patch : UInt64
  noPre : Bool
  parts : List Bytes
  build : Bytes

namespace Stored

def Version.key (version : Version × Bytes) : VersionKey where
  major := version.1.major
  minor := version.1.minor
  patch := version.1.patch
  noPre := version.1.tag.pre.isEmpty
  parts :=
    if version.1.tag.pre.isEmpty then [] else (version.1.tag.pre.slice version.2).splitOn 0x2e
  build := if version.1.tag.pre.isEmpty then version.1.tag.build.slice version.2 else []

end Stored

def numbersCmp : VersionKey → VersionKey → Ordering :=
  compareLex (compareOn VersionKey.major) (compareLex (compareOn VersionKey.minor)
    (compareLex (compareOn VersionKey.patch) (compareOn VersionKey.noPre)))

def keyCmp : VersionKey → VersionKey → Ordering :=
  compareLex numbersCmp fun a b => List.compareLex partCmp a.parts b.parts

def keyBuildCmp : VersionKey → VersionKey → Ordering :=
  compareLex keyCmp fun a b => order a.build b.build

instance : TransCmp numbersCmp := by
  unfold numbersCmp
  infer_instance

instance : TransCmp keyCmp := by
  unfold keyCmp
  infer_instance

instance : TransCmp keyBuildCmp := by
  unfold keyBuildCmp
  infer_instance

/-! ### The orders compare keys -/

namespace Stored

theorem compare_ite (a b : UInt64) (rest : Ordering) :
    (if a < b then .lt else if a > b then .gt else rest) = (compare a b).then rest := by
  show _ = (compareOfLessAndEq a b).then rest
  unfold compareOfLessAndEq
  by_cases less : a < b
  · rw [if_pos less, if_pos less]
    rfl
  · rw [if_neg less, if_neg less]
    by_cases same : a = b
    · subst same
      rw [if_neg (UInt64.lt_irrefl a), if_pos rfl]
      rfl
    · have greater : a > b := UInt64.lt_of_le_of_ne (UInt64.not_lt.mp less) (Ne.symm same)
      rw [if_pos greater, if_neg same]
      rfl

theorem orderWithoutTag_eq (lhs rhs : Version) (lhsBuf rhsBuf : Bytes) :
    lhs.orderWithoutTag rhs = numbersCmp (Version.key (lhs, lhsBuf)) (Version.key (rhs, rhsBuf)) := by
  have ofPre (t u : Tag) :
      (if t.hasPre then if !u.hasPre then .lt else .eq else if u.hasPre then .gt else .eq) =
        compare t.pre.isEmpty u.pre.isEmpty := by
    unfold Tag.hasPre
    cases t.pre.isEmpty <;> cases u.pre.isEmpty <;> rfl
  unfold Version.orderWithoutTag numbersCmp
  simp only [compare_ite, compareLex, compareOn, Version.key, ofPre]

/-- Eight zero bytes are read as nothing. -/
theorem slice_of_isEmpty {s : ExternalString} (empty : s.isEmpty = true) (buf : Bytes) :
    s.slice buf = [] := by
  have isZero : s.value.bytes = List.replicate 8 0 := eq_of_beq empty
  have byte (i : Fin 8) : s.value.byte i = 0 := by
    have isByte := SemverString.byte_eq s.value i
    rw [isZero, List.getElem?_replicate_of_lt i.isLt] at isByte
    exact (Option.some.inj isByte).symm
  unfold ExternalString.slice SemverString.slice
  rw [if_pos (by rw [byte]; rfl), if_pos (byte 0)]

/-- An empty string is equal to an empty one, whatever their hashes. -/
theorem order_of_isEmpty {s t : ExternalString} (empty : s.isEmpty = true)
    (empty' : t.isEmpty = true) (sBuf tBuf : Bytes) : s.order t sBuf tBuf = .eq := by
  unfold ExternalString.order
  rw [slice_of_isEmpty empty, slice_of_isEmpty empty']
  exact ite_self _

/-- Strings of some versions that have the same hash are the same. -/
structure HashesTellApart (versions : Set (Version × Bytes)) : Prop where
  build : ∀ v ∈ versions, ∀ w ∈ versions, v.1.tag.build.hash = w.1.tag.build.hash →
    0 < v.1.tag.build.hash → v.1.tag.build.slice v.2 = w.1.tag.build.slice w.2

/-- Where the numbers are the same, both versions have a prerelease or neither has. -/
theorem samePre_of_numbers {v w : Version × Bytes}
    (same : numbersCmp (Version.key v) (Version.key w) = .eq) :
    v.1.tag.pre.isEmpty = w.1.tag.pre.isEmpty := by
  unfold numbersCmp at same
  simp only [compareLex, Ordering.then_eq_eq] at same
  exact LawfulEqOrd.eq_of_compare same.2.2.2

theorem orderWithoutBuild_key (v w : Version × Bytes) :
    v.1.orderWithoutBuild w.1 v.2 w.2 = keyCmp (Version.key v) (Version.key w) := by
  unfold Version.orderWithoutBuild keyCmp compareLex
  rw [orderWithoutTag_eq v.1 w.1 v.2 w.2]
  cases isNumbers : numbersCmp (Version.key v) (Version.key w) with
  | lt => rfl
  | gt => rfl
  | eq =>
      have samePre := samePre_of_numbers isNumbers
      show Tag.orderWithoutBuild _ _ _ _ = List.compareLex partCmp _ _
      unfold Tag.orderWithoutBuild Version.key
      cases isEmpty : v.1.tag.pre.isEmpty with
      | true =>
          rw [isEmpty] at samePre
          rw [← samePre]
          exact order_of_isEmpty isEmpty samePre.symm _ _
      | false =>
          rw [isEmpty] at samePre
          rw [← samePre]
          exact orderPreParts_eq _ _

theorem order_key {versions : Set (Version × Bytes)} (hashes : HashesTellApart versions)
    {v w : Version × Bytes} (isV : v ∈ versions) (isW : w ∈ versions) :
    v.1.order w.1 v.2 w.2 = keyBuildCmp (Version.key v) (Version.key w) := by
  unfold Version.order keyBuildCmp keyCmp compareLex
  rw [orderWithoutTag_eq v.1 w.1 v.2 w.2]
  cases isNumbers : numbersCmp (Version.key v) (Version.key w) with
  | lt => rfl
  | gt => rfl
  | eq =>
      have samePre := samePre_of_numbers isNumbers
      show Tag.order _ _ _ _ = (List.compareLex partCmp _ _).then (Semver.order _ _)
      unfold Tag.order Version.key
      cases isEmpty : v.1.tag.pre.isEmpty with
      | true =>
          rw [isEmpty] at samePre
          rw [← samePre, order_of_isEmpty isEmpty samePre.symm]
          show ExternalString.order _ _ _ _ = Semver.order _ _
          unfold ExternalString.order
          split
          · next sameHash =>
            show Ordering.eq = Semver.order (v.1.tag.build.slice v.2) (w.1.tag.build.slice w.2)
            rw [hashes.build v isV w isW sameHash.1 sameHash.2]
            exact (@ReflCmp.compare_self _ Semver.order _ _).symm
          · rfl
      | false =>
          rw [isEmpty] at samePre
          rw [← samePre]
          show Tag.orderPre _ _ _ _ = (List.compareLex partCmp _ _).then .eq
          rw [Ordering.then_eq]
          exact orderPreParts_eq _ _

end Stored

/-! ### Both orders are total preorders -/

open Stored in
/-- Both orders are total preorders, and versions that are equal but for their build satisfy the
same comparators. -/
theorem order_totalPreorder {versions : Set (Stored.Version × Bytes)}
    (hashes : HashesTellApart versions) :
    TotalPreorder versions (fun v w => v.1.order w.1 v.2 w.2) ∧
    TotalPreorder versions (fun v w => v.1.orderWithoutBuild w.1 v.2 w.2) ∧
    ∀ v ∈ versions, ∀ w ∈ versions, v.1.orderWithoutBuild w.1 v.2 w.2 = .eq →
      ∀ op, ∀ c : Stored.Version × Bytes,
        Stored.Comparator.satisfies ⟨op, c.1⟩ v.1 c.2 v.2 =
          Stored.Comparator.satisfies ⟨op, c.1⟩ w.1 c.2 w.2 := by
  have all : TotalPreorder Set.univ
      fun v w : Stored.Version × Bytes => v.1.orderWithoutBuild w.1 v.2 w.2 :=
    totalPreorder_of_key Version.key fun v _ w _ => orderWithoutBuild_key v w
  refine ⟨?_, ?_, ?_⟩
  · exact totalPreorder_of_key Version.key fun v isV w isW => order_key hashes isV isW
  · exact totalPreorder_of_key Version.key fun v _ w _ => orderWithoutBuild_key v w
  · intro v _ w _ same op c
    have sameOrder : v.1.orderWithoutBuild c.1 v.2 c.2 = w.1.orderWithoutBuild c.1 w.2 c.2 :=
      all.congr trivial trivial trivial same
    unfold Stored.Comparator.satisfies
    rw [sameOrder]

/-- Versions without hashes are told apart by their strings. -/
theorem order_totalPreorder_unhashed :
    TotalPreorder {v : Stored.Version × Bytes | v.1.tag.build.hash = 0}
      (fun v w => v.1.order w.1 v.2 w.2) :=
  (order_totalPreorder ⟨fun v isV w isW _ notZero => by
    rw [show v.1.tag.build.hash = 0 from isV] at notZero
    exact absurd notZero (by decide)⟩).1

/-! ### Versions as values -/

namespace Stored

def ExternalString.read (s : ExternalString) (buf : Bytes) : Semver.ExternalString :=
  { value := s.slice buf, hash := s.hash }

/-- The version with its strings read from the buffer. -/
def Version.read (v : Version) (buf : Bytes) : Semver.Version where
  major := v.major.toNat
  minor := v.minor.toNat
  patch := v.patch.toNat
  tag := { pre := v.tag.pre.read buf, build := v.tag.build.read buf }

/-- Only the empty string is read as nothing; a string that begins with a zero byte is too. -/
def ExternalString.Plain (s : ExternalString) (buf : Bytes) : Prop :=
  s.slice buf = [] → s.isEmpty = true

theorem isEmpty_read {s : ExternalString} {buf : Bytes} (plain : s.Plain buf) :
    (s.read buf).isEmpty = s.isEmpty := by
  cases isEmpty : s.isEmpty with
  | true =>
      unfold ExternalString.read Semver.ExternalString.isEmpty
      rw [slice_of_isEmpty isEmpty]
      rfl
  | false =>
      unfold ExternalString.read Semver.ExternalString.isEmpty
      cases isSlice : s.slice buf with
      | nil => rw [plain isSlice] at isEmpty; cases isEmpty
      | cons c rest => rfl

/-- The order of stored versions is that of the versions they stand for. -/
theorem orderWithoutBuild_read {v w : Version} {vBuf wBuf : Bytes} (plain : v.tag.pre.Plain vBuf)
    (plain' : w.tag.pre.Plain wBuf) :
    (v.read vBuf).orderWithoutBuild (w.read wBuf) = v.orderWithoutBuild w vBuf wBuf := by
  have isEmpty := isEmpty_read plain
  have isEmpty' := isEmpty_read plain'
  have sameNumbers : (v.read vBuf).orderWithoutTag (w.read wBuf) = v.orderWithoutTag w := by
    unfold Semver.Version.orderWithoutTag Version.orderWithoutTag Semver.Tag.hasPre Tag.hasPre
      Version.read
    simp only [isEmpty, isEmpty', UInt64.lt_iff_toNat_lt, gt_iff_lt]
  unfold Semver.Version.orderWithoutBuild Version.orderWithoutBuild
  rw [sameNumbers]
  cases v.orderWithoutTag w with
  | lt => rfl
  | gt => rfl
  | eq =>
      show Semver.Tag.orderWithoutBuild _ _ = Tag.orderWithoutBuild _ _ _ _
      unfold Semver.Tag.orderWithoutBuild Tag.orderWithoutBuild Version.read
      rw [isEmpty, isEmpty']
      rfl

end Stored

end Bunx.Semver
