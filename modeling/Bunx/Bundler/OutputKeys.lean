/-
Module: Bunx.Bundler.OutputKeys
Purpose: A text in which each unique prefix begins a key is cut at its keys, from left to right.
Trusted boundary: none
Main exports: IsKey, KeyedText, EveryKey, breakLoop_eq, EveryKey.keyedText
-/
import Bunx.Bundler.OutputPieces

namespace Bunx.Bundler

open Bunx.Lib Bunx.Paths

section Keys

variable (limits : KeyLimits) (uniqueKeyPrefix : Bytes)

/-- The prefix, the letter of a kind, and the eight digits of an index that is in range. -/
structure IsKey (key : Bytes) (query : Query) : Prop where
  text : ∃ letter digits, key = uniqueKeyPrefix ++ letter :: digits ∧
    query.kind.letter = some letter ∧ digits.length = 8 ∧ readIndex digits 0 = some query.index
  admits : limits.admits query.kind query.index = true

/-- A text, cut at its keys from left to right. -/
inductive KeyedText : Bytes → List (Bytes × Query) → Bytes → Prop
  | last {text : Bytes} (nowhere : indexOf uniqueKeyPrefix text = none) : KeyedText text [] text
  | key {data key rest last : Bytes} {query : Query} {keys : List (Bytes × Query)}
      (first : indexOf uniqueKeyPrefix (data ++ key ++ rest) = some data.length)
      (isKey : IsKey limits uniqueKeyPrefix key query) (more : KeyedText rest keys last) :
      KeyedText (data ++ key ++ rest) ((data, query) :: keys) last

/-- Each place where the prefix occurs begins a key. -/
def EveryKey (valid : Query → Prop) (text : Bytes) : Prop :=
  ∀ i, uniqueKeyPrefix <+: text.drop i → ∃ key query,
    IsKey limits uniqueKeyPrefix key query ∧ valid query ∧ key <+: text.drop i

variable {limits uniqueKeyPrefix}

theorem fromLetter_letter {kind : QueryKind} {letter : UInt8} (isLetter : kind.letter = some letter) :
    QueryKind.fromLetter letter = some kind := by
  cases kind with
  | none => cases isLetter
  | asset => cases isLetter; rfl
  | chunk => cases isLetter; rfl
  | scb => cases isLetter; rfl
  | htmlImport => cases isLetter; rfl

theorem readIndex_lt {digits : Bytes} {acc index : Nat} (isRead : readIndex digits acc = some index) :
    index < (acc + 1) * 10 ^ digits.length := by
  induction digits generalizing acc with
  | nil =>
      cases isRead
      simp
  | cons c digits ih =>
      rw [readIndex] at isRead
      split at isRead
      · cases isRead
      · next isDigit =>
        have high : c.toNat ≤ 0x39 := by
          have notAbove := (not_or.mp isDigit).2
          exact Nat.le_of_not_lt fun above => notAbove (UInt8.lt_iff_toNat_lt.mpr above)
        have bound := ih isRead
        have step : acc * 10 + (c.toNat - 0x30) + 1 ≤ (acc + 1) * 10 := by omega
        calc index < (acc * 10 + (c.toNat - 0x30) + 1) * 10 ^ digits.length := bound
          _ ≤ (acc + 1) * 10 * 10 ^ digits.length := Nat.mul_le_mul_right _ step
          _ = (acc + 1) * 10 ^ (c :: digits).length := by
            rw [List.length_cons, Nat.pow_succ, Nat.mul_assoc, Nat.mul_comm 10]

theorem IsKey.length {key : Bytes} {query : Query} (isKey : IsKey limits uniqueKeyPrefix key query) :
    key.length = uniqueKeyPrefix.length + 9 := by
  obtain ⟨letter, digits, rfl, _, eight, _⟩ := isKey.text
  rw [List.length_append, List.length_cons, eight]

/-- The kind and the index are read from a key. -/
theorem boundaryQuery_key {data key rest : Bytes} {query : Query}
    (isKey : IsKey limits uniqueKeyPrefix key query) :
    boundaryQuery limits (data ++ key ++ rest) (data.length + uniqueKeyPrefix.length) =
      some query := by
  have long := isKey.length
  obtain ⟨⟨letter, digits, isText, isLetter, eight, isIndex⟩, admits⟩ := isKey
  have split : data ++ key ++ rest =
      (data ++ uniqueKeyPrefix) ++ (letter :: (digits ++ rest)) := by
    rw [isText]
    simp
  have start : (data ++ uniqueKeyPrefix).length = data.length + uniqueKeyPrefix.length :=
    List.length_append
  have enough : ¬ data.length + uniqueKeyPrefix.length + 9 > (data ++ key ++ rest).length := by
    rw [List.length_append, List.length_append, long]
    omega
  have small : query.index < 2 ^ 29 := by
    have bound := readIndex_lt isIndex
    rw [eight] at bound
    omega
  have atLetter : (data ++ key ++ rest)[data.length + uniqueKeyPrefix.length]? = some letter := by
    rw [split, ← start, List.getElem?_append_right (Nat.le_refl _), Nat.sub_self]
    rfl
  have atDigits : ((data ++ key ++ rest).drop (data.length + uniqueKeyPrefix.length + 1)).take 8 =
      digits := by
    rw [split, ← start, ← List.drop_drop, List.drop_left, List.drop_succ_cons, List.drop_zero,
      ← eight, List.take_left]
  simp only [boundaryQuery, enough, if_false, atLetter, atDigits, fromLetter_letter isLetter,
    isIndex, Option.bind_eq_bind, Option.bind_some, admits, if_true, Query.new,
    Nat.mod_eq_of_lt small]

def keyPieces (keys : List (Bytes × Query)) (last : Bytes) : List OutputPiece :=
  (keys.map fun key => { data := key.1, query := key.2 }) ++
    [{ data := last, query := Query.none }]

/-- The loop cuts a text at its keys. -/
theorem breakLoop_eq {fuel : Nat} {text last : Bytes} {keys : List (Bytes × Query)}
    (keyed : KeyedText limits uniqueKeyPrefix text keys last) (enough : text.length ≤ fuel) :
    breakLoop limits uniqueKeyPrefix fuel text = keyPieces keys last := by
  induction keyed generalizing fuel with
  | last nowhere =>
      cases fuel with
      | zero => rfl
      | succ fuel =>
          rw [breakLoop, nowhere]
          rfl
  | @key data key rest last query keys first isKey more ih =>
      have long := isKey.length
      rw [List.length_append, List.length_append, long] at enough
      obtain ⟨fuel, rfl⟩ := Nat.exists_eq_succ_of_ne_zero (n := fuel) (by omega)
      have taken : (data ++ key ++ rest).take data.length = data := by
        rw [List.append_assoc, List.take_left]
      have dropped :
          (data ++ key ++ rest).drop (data.length + uniqueKeyPrefix.length + 9) = rest := by
        rw [Nat.add_assoc, ← long, ← List.length_append, List.drop_left]
      rw [breakLoop, first]
      dsimp only
      rw [boundaryQuery_key isKey]
      dsimp only
      rw [taken, dropped, ih (by omega)]
      rfl

theorem EveryKey.drop {valid : Query → Prop} {front rest : Bytes}
    (every : EveryKey limits uniqueKeyPrefix valid (front ++ rest)) :
    EveryKey limits uniqueKeyPrefix valid rest := by
  intro i occurs
  have there := every (front.length + i)
  rw [← List.drop_drop, List.drop_left] at there
  exact there occurs

/-- A text in which each prefix begins a key can be cut at its keys. -/
theorem EveryKey.keyedText {valid : Query → Prop} {text : Bytes}
    (every : EveryKey limits uniqueKeyPrefix valid text) :
    ∃ keys last, KeyedText limits uniqueKeyPrefix text keys last ∧
      ∀ key ∈ keys, valid key.2 := by
  induction size : text.length using Nat.strongRecOn generalizing text with
  | ind n ih =>
      cases found : indexOf uniqueKeyPrefix text with
      | none => exact ⟨[], text, .last found, by simp⟩
      | some i =>
          obtain ⟨occurs, inside, _⟩ := indexOf_eq_some_iff.mp found
          obtain ⟨key, query, isKey, isValid, rest, isRest⟩ := every i occurs
          have split : text = text.take i ++ key ++ rest := by
            rw [List.append_assoc, isRest, List.take_append_drop]
          have dataLength : (text.take i).length = i := List.length_take_of_le inside
          have restEvery : EveryKey limits uniqueKeyPrefix valid rest := by
            rw [split] at every
            exact every.drop
          have less : rest.length < n := by
            have whole := congrArg List.length split
            rw [List.length_append, List.length_append, isKey.length] at whole
            omega
          obtain ⟨keys, last, keyed, allValid⟩ := ih _ less restEvery rfl
          refine ⟨(text.take i, query) :: keys, last, ?_, ?_⟩
          · have first : indexOf uniqueKeyPrefix (text.take i ++ key ++ rest) =
                some (text.take i).length := by
              rw [← split, dataLength]
              exact found
            have cut := KeyedText.key first isKey keyed
            rwa [← split] at cut
          · intro other member
            rcases List.mem_cons.mp member with rfl | inKeys
            · exact isValid
            · exact allValid other inKeys

end Keys

end Bunx.Bundler
