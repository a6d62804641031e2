/-
Module: Bunx.Url.QueryReference
Purpose: What a query string means, piece by piece, and that the scanner gives its pieces up to
  the first one that has a value and no name.
Trusted boundary: none
Main exports:
  percentDecode, splitPiece, pieceEntry, pieces, referencePairs, Reads, scannedPieces,
  results_read
-/
import Mathlib.Data.List.Forall2
import Bunx.Url.QueryString

namespace Bunx.Url

/-! ### The reference -/

/-- The bytes that a text stands for; none when a percent sign is not followed by two digits. -/
def percentDecode : Bytes → Option Bytes
  | [] => some []
  | c :: rest =>
      if c = percent then
        match rest with
        | a :: b :: behind =>
            if isAsciiHexdigit a && isAsciiHexdigit b then
              (percentDecode behind).map ((toAsciiHexValue a <<< 4 ||| toAsciiHexValue b) :: ·)
            else none
        | _ => none
      else (percentDecode rest).map (c :: ·)

/-- A piece is split at its first `=`. -/
def splitPiece (piece : Bytes) : Bytes × Bytes :=
  (piece.takeWhile (· != equalsSign), (piece.dropWhile (· != equalsSign)).drop 1)

/-- The entry of a piece; none without a name or when malformed. -/
def pieceEntry (piece : Bytes) : Option (Bytes × Bytes) :=
  let (name, value) := splitPiece piece
  if name = [] then none
  else
    match percentDecode name, percentDecode value with
    | some name, some value => some (name, value)
    | _, _ => none

/-- One question mark at the front is left out. -/
def pieces (queryString : Bytes) : List Bytes :=
  (queryString.drop (scannerStart queryString)).splitOn ampersand

def referencePairs (queryString : Bytes) : List (Bytes × Bytes) :=
  ((pieces queryString).filterMap pieceEntry).take maxQueryStringParams

/-! ### Decoding -/

/-- What is decoded is written, and on an error what stands before it. -/
theorem decode_eq : ∀ input : Bytes,
    percentDecode input = if (decode input).2 then some (decode input).1 else none
  | [] => rfl
  | [c] => by
      rw [percentDecode.eq_def, decode.eq_def]
      dsimp only
      split
      · rfl
      · rfl
  | [c, d] => by
      have rest := decode_eq [d]
      rw [percentDecode.eq_def, decode.eq_def]
      dsimp only
      split
      · rfl
      · rw [rest]
        cases (decode [d]).2 <;> rfl
  | c :: a :: b :: behind => by
      have rest := decode_eq (a :: b :: behind)
      have after := decode_eq behind
      rw [percentDecode, decode]
      split
      · dsimp only
        split
        · rw [after]
          cases (decode behind).2 <;> rfl
        · rfl
      · rw [rest]
        cases (decode (a :: b :: behind)).2 <;> rfl

/-- A text without percent signs stands for itself. -/
theorem decode_plain : ∀ input : Bytes, percent ∉ input → decode input = (input, true)
  | [], _ => rfl
  | c :: rest, plain => by
      rw [List.mem_cons, not_or] at plain
      rw [decode.eq_def]
      dsimp only
      rw [if_neg (fun same => plain.1 same.symm), decode_plain rest plain.2]

theorem percentDecode_plain {input : Bytes} (plain : input.any needsDecoding = false) :
    percentDecode input = some input := by
  have noPercent : percent ∉ input := by
    intro member
    rw [List.any_eq_false] at plain
    exact plain percent member (by decide)
  rw [decode_eq, decode_plain input noPercent]
  rfl

/-! ### The scanner -/

/-- A result of the scanner is a piece of the query string. -/
structure Reads (queryString : Bytes) (result : ScannerResult) (piece : Bytes) : Prop where
  nameRange : result.name.offset + result.name.length ≤ queryString.length
  name : result.name.read queryString = (splitPiece piece).1
  nameFlag : result.nameNeedsDecoding = (splitPiece piece).1.any needsDecoding
  valueRange : result.value.offset + result.value.length ≤ queryString.length
  value : result.value.read queryString = (splitPiece piece).2
  valueFlag : result.valueNeedsDecoding = (splitPiece piece).2.any needsDecoding
  someName : (splitPiece piece).1 ≠ []

/-- A value without a name. -/
def isBareValue (piece : Bytes) : Bool := piece.head? == some equalsSign

/-- The pieces that the scanner gets to. -/
def scannedPieces (list : List Bytes) : List Bytes :=
  (list.filter fun piece => !piece.isEmpty).takeWhile fun piece => !isBareValue piece

theorem scanName_ends {c : UInt8} (ends : c = equalsSign ∨ c = ampersand) (relativeI : Nat)
    (needs : Bool) (rest : Bytes) :
    scanName relativeI needs (c :: rest) = (relativeI, needs, some c) :=
  if_pos ends

theorem scanName_piece {behind : Bytes}
    (ends : ∀ c, behind.head? = some c → c = equalsSign ∨ c = ampersand) :
    ∀ (name : Bytes) (relativeI : Nat) (needs : Bool), equalsSign ∉ name → ampersand ∉ name →
      scanName relativeI needs (name ++ behind) =
        (relativeI + name.length, needs || name.any needsDecoding, behind.head?)
  | [], relativeI, needs, _, _ => by
      rw [List.nil_append, List.any_nil, Bool.or_false, List.length_nil, Nat.add_zero]
      cases behind with
      | nil => rfl
      | cons c rest => rw [scanName, if_pos (ends c rfl), List.head?_cons]
  | c :: name, relativeI, needs, noEquals, noAmpersand => by
      rw [List.mem_cons, not_or] at noEquals noAmpersand
      have inside : ¬(c = equalsSign ∨ c = ampersand) := by
        rintro (same | same)
        · exact noEquals.1 same.symm
        · exact noAmpersand.1 same.symm
      rw [List.cons_append, scanName, if_neg inside,
        scanName_piece ends name _ _ noEquals.2 noAmpersand.2, List.any_cons, List.length_cons,
        Bool.or_assoc, Nat.add_assoc, Nat.add_comm 1]

theorem scanValue_piece {behind : Bytes}
    (ends : ∀ c, behind.head? = some c → c = ampersand) :
    ∀ (value : Bytes) (relativeI : Nat) (needs : Bool), ampersand ∉ value →
      scanValue relativeI needs (value ++ behind) =
        (relativeI + value.length, needs || value.any needsDecoding)
  | [], relativeI, needs, _ => by
      rw [List.nil_append, List.any_nil, Bool.or_false, List.length_nil, Nat.add_zero]
      cases behind with
      | nil => rfl
      | cons c rest => rw [scanValue, if_pos (ends c rfl)]
  | c :: value, relativeI, needs, noAmpersand => by
      rw [List.mem_cons, not_or] at noAmpersand
      rw [List.cons_append, scanValue, if_neg fun same => noAmpersand.1 same.symm,
        scanValue_piece ends value _ _ noAmpersand.2, List.any_cons, List.length_cons,
        Bool.or_assoc, Nat.add_assoc, Nat.add_comm 1]

theorem splitPiece_name {name : Bytes} (noEquals : equalsSign ∉ name) :
    splitPiece name = (name, []) := by
  have inName : ∀ c ∈ name, (c != equalsSign) = true := by
    intro c member
    rw [bne_iff_ne]
    intro same
    exact noEquals (same ▸ member)
  have split : (name ++ []).takeWhile (· != equalsSign) = name ++ [] :=
    List.takeWhile_append_of_pos inName
  have rest : (name ++ []).dropWhile (· != equalsSign) = [] :=
    List.dropWhile_append_of_pos inName
  rw [List.append_nil] at split rest
  unfold splitPiece
  rw [split, rest]
  simp

theorem splitPiece_value {name : Bytes} (value : Bytes) (noEquals : equalsSign ∉ name) :
    splitPiece (name ++ equalsSign :: value) = (name, value) := by
  have inName : ∀ c ∈ name, (c != equalsSign) = true := by
    intro c member
    rw [bne_iff_ne]
    intro same
    exact noEquals (same ▸ member)
  unfold splitPiece
  rw [List.takeWhile_append_of_pos inName, List.dropWhile_append_of_pos inName]
  simp

/-- A piece is a name, or a name and a value. -/
theorem piece_cases (piece : Bytes) : equalsSign ∉ piece ∨
    ∃ name value, piece = name ++ equalsSign :: value ∧ equalsSign ∉ name := by
  by_cases member : equalsSign ∈ piece
  · obtain ⟨name, value, split, first⟩ := List.eq_append_cons_of_mem member
    exact Or.inr ⟨name, value, split, first⟩
  · exact Or.inl member

/-- A pointer to a part of the text reads it. -/
theorem read_part {text before part behind : Bytes} (split : text = before ++ (part ++ behind)) :
    StringPointer.read ⟨before.length, part.length⟩ text = part := by
  unfold StringPointer.read
  rw [split, List.drop_left, List.take_left]

/-- At a piece with a name the scanner gives that piece. -/
theorem next_piece {queryString before piece behind : Bytes} (fuel : Nat)
    (split : queryString = before ++ (piece ++ behind)) (noAmpersand : ampersand ∉ piece)
    (ends : ∀ c, behind.head? = some c → c = ampersand) (someByte : piece ≠ [])
    (named : isBareValue piece = false) :
    ∃ result, next queryString (fuel + 1) before.length =
        (some result, before.length + piece.length) ∧
      Reads queryString result piece := by
  have total : queryString.length = before.length + (piece.length + behind.length) := by
    rw [split, List.length_append, List.length_append]
  have pos : 0 < piece.length := List.length_pos_iff.mpr someByte
  have slice : queryString.drop before.length = piece ++ behind := by
    rw [split, List.drop_left]
  rw [next, if_neg (by omega), slice]
  dsimp only
  rcases piece_cases piece with noEquals | ⟨name, value, rfl, noEquals⟩
  · rw [scanName_piece (fun c first => Or.inr (ends c first)) piece 0 false noEquals noAmpersand,
      Nat.zero_add, Bool.false_or]
    have reads : Reads queryString
        ⟨piece.any needsDecoding, false, ⟨before.length, piece.length⟩, {}⟩ piece := by
      have same := splitPiece_name noEquals
      constructor
      · dsimp only
        omega
      · rw [same]
        exact read_part split
      · rw [same]
      · exact Nat.zero_le _
      · rw [same]
        rfl
      · rw [same]
        rfl
      · rw [same]
        exact someByte
    cases behind with
    | nil =>
        rw [List.head?_nil]
        dsimp only
        rw [if_neg (by omega)]
        exact ⟨_, rfl, reads⟩
    | cons c rest =>
        rw [List.head?_cons]
        dsimp only
        rw [ends c rfl, if_neg (by decide), if_pos pos]
        exact ⟨_, rfl, reads⟩
  · have noBreak : ampersand ∉ name ∧ ampersand ∉ value := by
      rw [List.mem_append, List.mem_cons, not_or, not_or] at noAmpersand
      exact ⟨noAmpersand.1, noAmpersand.2.2⟩
    have same := splitPiece_value value noEquals
    have length : (name ++ equalsSign :: value).length = name.length + 1 + value.length := by
      rw [List.length_append, List.length_cons, Nat.add_comm value.length, Nat.add_assoc]
    have someName : name ≠ [] := by
      intro none
      rw [none] at named
      cases named
    have namePos : 0 < name.length := List.length_pos_iff.mpr someName
    have assoc : name ++ equalsSign :: value ++ behind =
        name ++ (equalsSign :: (value ++ behind)) := by
      rw [List.append_assoc, List.cons_append]
    have valueSlice : (name ++ (equalsSign :: (value ++ behind))).drop (name.length + 1) =
        value ++ behind := by
      rw [← List.drop_drop, List.drop_left]
      rfl
    have nameEnds : ∀ c, (equalsSign :: (value ++ behind)).head? = some c →
        c = equalsSign ∨ c = ampersand := by
      intro c first
      cases first
      exact Or.inl rfl
    rw [assoc, scanName_piece nameEnds name 0 false noEquals noBreak.1, Nat.zero_add, Bool.false_or, List.head?_cons]
    dsimp only
    rw [if_pos rfl, valueSlice, scanValue_piece ends value _ _ noBreak.2, Bool.false_or]
    dsimp only
    rw [if_neg (Nat.ne_of_gt namePos), Nat.add_sub_cancel_left, length]
    refine ⟨_, rfl, ?_⟩
    rw [length] at total
    have atValue : queryString =
        (before ++ name ++ [equalsSign]) ++ (value ++ behind) := by
      rw [split, assoc]
      simp
    have valueStart : (before ++ name ++ [equalsSign]).length = name.length + 1 + before.length := by
      rw [List.length_append, List.length_append, List.length_singleton]
      omega
    constructor
    · dsimp only
      omega
    · rw [same]
      rw [assoc] at split
      exact read_part split
    · rw [same]
    · dsimp only
      omega
    · rw [same, ← valueStart]
      exact read_part atValue
    · rw [same]
    · rw [same]
      exact someName

/-- A value without a name ends the scan. -/
theorem next_bareValue {queryString before piece behind : Bytes} (fuel : Nat)
    (split : queryString = before ++ (piece ++ behind)) (bare : isBareValue piece = true) :
    (next queryString (fuel + 1) before.length).1 = none := by
  have someByte : 0 < piece.length := by
    cases piece with
    | nil => cases bare
    | cons c value => exact Nat.succ_pos _
  have total : queryString.length = before.length + (piece.length + behind.length) := by
    rw [split, List.length_append, List.length_append]
  have slice : queryString.drop before.length = piece ++ behind := by
    rw [split, List.drop_left]
  cases piece with
  | nil => cases bare
  | cons c value =>
      have isEquals : c = equalsSign := by
        unfold isBareValue at bare
        rw [List.head?_cons, beq_iff_eq] at bare
        exact Option.some.inj bare
      rw [next, if_neg (by omega), slice, List.cons_append]
      dsimp only
      rw [scanName_ends (Or.inl isEquals)]
      dsimp only
      rw [if_pos isEquals]
      rfl

theorem next_end (queryString : Bytes) (fuel : Nat) :
    (next queryString (fuel + 1) queryString.length).1 = none := by
  rw [next, if_pos (Nat.le_refl _)]

/-- Ampersands are passed over. -/
theorem next_ampersands {queryString before ands rest : Bytes}
    (split : queryString = before ++ (ands ++ rest)) (onlyAnds : ∀ c ∈ ands, c = ampersand)
    (stops : rest.head? ≠ some ampersand) :
    ∃ more, next queryString (queryString.length + 1) before.length =
      next queryString (more + 1) (before ++ ands).length := by
  cases ands with
  | nil => exact ⟨queryString.length, by rw [List.append_nil]⟩
  | cons c others =>
      have isAnd : c = ampersand := onlyAnds c List.mem_cons_self
      have total : queryString.length = before.length + ((c :: others).length + rest.length) := by
        rw [split, List.length_append, List.length_append]
      rw [List.length_cons] at total
      obtain ⟨more, length⟩ : ∃ n, queryString.length = n + 1 := ⟨queryString.length - 1, by omega⟩
      refine ⟨more, ?_⟩
      have slice : queryString.drop before.length = (c :: others) ++ rest := by
        rw [split, List.drop_left]
      have run : ((c :: others) ++ rest).takeWhile (· == ampersand) = c :: others := by
        rw [List.takeWhile_append_of_pos fun d member => beq_iff_eq.mpr (onlyAnds d member)]
        cases rest with
        | nil => exact List.append_nil _
        | cons d behind =>
            have notAnd : ¬(d == ampersand) = true := by
              intro same
              exact stops (congrArg some (beq_iff_eq.mp same))
            rw [List.takeWhile_cons_of_neg (p := fun d => d == ampersand) notAnd, List.append_nil]
      rw [next, if_neg (by omega), slice]
      dsimp only
      rw [run, List.cons_append, scanName_ends (Or.inr isAnd), List.length_append, length]
      dsimp only
      rw [if_neg (by rw [isAnd]; decide), if_neg (Nat.lt_irrefl 0)]

theorem scannedPieces_nil_cons (list : List Bytes) :
    scannedPieces ([] :: list) = scannedPieces list := rfl

theorem scannedPieces_bare {piece : Bytes} (bare : isBareValue piece = true) (list : List Bytes) :
    scannedPieces (piece :: list) = [] := by
  have someByte : (!piece.isEmpty) = true := by
    cases piece with
    | nil => cases bare
    | cons c rest => rfl
  unfold scannedPieces
  rw [List.filter_cons_of_pos (p := fun piece : Bytes => !piece.isEmpty) someByte, List.takeWhile_cons_of_neg (by rw [bare]; decide)]

theorem scannedPieces_named {piece : Bytes} (someByte : piece ≠ [])
    (named : isBareValue piece = false) (list : List Bytes) :
    scannedPieces (piece :: list) = piece :: scannedPieces list := by
  have kept : (!piece.isEmpty) = true := by
    cases piece with
    | nil => exact absurd rfl someByte
    | cons c rest => rfl
  unfold scannedPieces
  rw [List.filter_cons_of_pos (p := fun piece : Bytes => !piece.isEmpty) kept, List.takeWhile_cons_of_pos (by rw [named]; rfl)]

theorem scannedPieces_ampersands (rest : Bytes) : ∀ ands : Bytes, (∀ c ∈ ands, c = ampersand) →
    scannedPieces ((ands ++ rest).splitOn ampersand) = scannedPieces (rest.splitOn ampersand)
  | [], _ => rfl
  | c :: ands, onlyAnds => by
      have isAnd : c = ampersand := onlyAnds c List.mem_cons_self
      have split : (c :: ands ++ rest).splitOn ampersand =
          [] :: (ands ++ rest).splitOn ampersand := by
        rw [isAnd]
        exact List.splitOn_append_cons_self_of_not_mem List.not_mem_nil (ands ++ rest)
      rw [split, scannedPieces_nil_cons]
      exact scannedPieces_ampersands rest ands fun d member =>
        onlyAnds d (List.mem_cons_of_mem _ member)

theorem splitOn_piece {piece behind : Bytes} (noAmpersand : ampersand ∉ piece)
    (ends : ∀ c, behind.head? = some c → c = ampersand) :
    ∃ others, (piece ++ behind).splitOn ampersand = piece :: others ∧
      scannedPieces others = scannedPieces (behind.splitOn ampersand) := by
  cases behind with
  | nil =>
      refine ⟨[], ?_, rfl⟩
      rw [List.append_nil, List.splitOn_eq_singleton noAmpersand]
  | cons c rest =>
      rw [ends c rfl]
      refine ⟨rest.splitOn ampersand, ?_, ?_⟩
      · exact List.splitOn_append_cons_self_of_not_mem noAmpersand rest
      · have empty : (ampersand :: rest).splitOn ampersand = [] :: rest.splitOn ampersand :=
          List.splitOn_append_cons_self_of_not_mem List.not_mem_nil rest
        rw [empty, scannedPieces_nil_cons]

/-- A text that goes on is a run of ampersands, a piece and what follows it. -/
theorem text_cases (text : Bytes) : ∃ ands piece behind, text = ands ++ (piece ++ behind) ∧
    (∀ c ∈ ands, c = ampersand) ∧ ampersand ∉ piece ∧
      (∀ c, behind.head? = some c → c = ampersand) ∧ (piece = [] → behind = []) := by
  let rest := text.dropWhile (· == ampersand)
  refine ⟨text.takeWhile (· == ampersand), rest.takeWhile (· != ampersand),
    rest.dropWhile (· != ampersand), ?_, ?_, ?_, ?_, ?_⟩
  · rw [List.takeWhile_append_dropWhile, List.takeWhile_append_dropWhile]
  · intro c member
    exact beq_iff_eq.mp (List.all_eq_true.mp List.all_takeWhile c member)
  · intro member
    exact bne_iff_ne.mp (List.all_eq_true.mp (List.all_takeWhile (p := (· != ampersand))) _ member) rfl
  · intro c first
    have stopped := List.head?_dropWhile_not (· != ampersand) rest
    rw [first] at stopped
    simpa using stopped
  · intro none
    cases tail : rest with
    | nil => rfl
    | cons c others =>
        have stopped := List.head?_dropWhile_not (· == ampersand) text
        rw [show text.dropWhile (· == ampersand) = c :: others from tail, List.head?_cons] at stopped
        have notAnd : (c != ampersand) = true := by simpa using stopped
        rw [tail, List.takeWhile_cons_of_pos (p := fun d => d != ampersand) notAnd] at none
        cases none

/-- The scanner gives the pieces that have a name, up to the first one that has only a value. -/
theorem resultsFrom_read {queryString : Bytes} : ∀ (fuel : Nat) (before text : Bytes),
    queryString = before ++ text → text.length < fuel →
      List.Forall₂ (Reads queryString) (resultsFrom queryString fuel before.length)
        (scannedPieces (text.splitOn ampersand))
  | 0, _, _, _, enough => absurd enough (Nat.not_lt_zero _)
  | fuel + 1, before, text, split, enough => by
      obtain ⟨ands, piece, behind, rfl, onlyAnds, noAmpersand, ends, someBehind⟩ := text_cases text
      have stops : (piece ++ behind).head? ≠ some ampersand := by
        cases piece with
        | nil =>
            rw [someBehind rfl]
            exact fun none => by cases none
        | cons c others =>
            intro same
            exact noAmpersand (List.mem_cons.mpr (Or.inl (Option.some.inj same).symm))
      obtain ⟨more, skipped⟩ := next_ampersands split onlyAnds stops
      rw [scannedPieces_ampersands _ ands onlyAnds, resultsFrom, skipped]
      rw [← List.append_assoc] at split
      rw [List.length_append, List.length_append] at enough
      by_cases someByte : piece = []
      · rw [someByte, someBehind someByte, List.append_nil, List.append_nil] at split
        rw [someByte, someBehind someByte, ← split]
        have ended := next_end queryString more
        rcases answer : next queryString (more + 1) queryString.length with ⟨found, i⟩
        rw [answer] at ended
        cases ended
        exact List.Forall₂.nil
      · obtain ⟨others, pieces, rest⟩ := splitOn_piece noAmpersand ends
        rw [pieces]
        cases bare : isBareValue piece with
        | true =>
            have ended := next_bareValue more split bare
            rw [scannedPieces_bare bare]
            rcases answer : next queryString (more + 1) (before ++ ands).length with ⟨found, i⟩
            rw [answer] at ended
            cases ended
            exact List.Forall₂.nil
        | false =>
            obtain ⟨result, found, reads⟩ := next_piece more split noAmpersand ends someByte bare
            have pos : 0 < piece.length := List.length_pos_iff.mpr someByte
            rw [found, scannedPieces_named someByte bare, rest, ← List.length_append]
            rw [← List.append_assoc] at split
            exact List.Forall₂.cons reads
              (resultsFrom_read fuel (before ++ ands ++ piece) behind split (by omega))

theorem results_read (queryString : Bytes) :
    List.Forall₂ (Reads queryString) (results queryString)
      (scannedPieces (pieces queryString)) := by
  have start : scannerStart queryString ≤ queryString.length := by
    unfold scannerStart
    cases queryString with
    | nil => exact Nat.le_refl 0
    | cons c rest =>
        rw [List.length_cons]
        split <;> omega
  have split := (List.take_append_drop (scannerStart queryString) queryString).symm
  have read := resultsFrom_read (queryString.length + 1) _ _ split
    (by rw [List.length_drop]; omega)
  rw [List.length_take, Nat.min_eq_left start] at read
  exact read

end Bunx.Url
