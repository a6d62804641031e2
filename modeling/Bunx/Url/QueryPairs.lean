/-
Module: Bunx.Url.QueryPairs
Purpose: The map of a query string holds the entries of its pieces, as long as no piece that the
  code stumbles over stands before one that it should hold.
Trusted boundary: none
Main exports:
  QueryStringMap.pairs, initPairs, PartlyDecoded, NothingAfter, Holds, foldl_holds,
  init_reference, init_reference_sample, init_cuts
-/
import Bunx.Url.QueryReference

namespace Bunx.Url

/-! ### What a map holds -/

/-- The names and values of a map as `str` gives them; nothing where it leaves the slice. -/
def QueryStringMap.pairs (map : QueryStringMap) : Option (List (Bytes × Bytes)) :=
  map.list.mapM fun param => do
    let name ← map.str param.name
    let value ← map.str param.value
    some (name, value)

/-- No map holds no pairs. -/
def initPairs (wyhash : Bytes → UInt64) (queryString : Bytes) : Option (List (Bytes × Bytes)) :=
  match init wyhash queryString with
  | none => some []
  | some map => map.pairs

/-! ### Pieces that the code stumbles over -/

/-- A piece that is malformed behind bytes that are decoded before. -/
def PartlyDecoded (piece : Bytes) : Prop :=
  (splitPiece piece).1 ≠ [] ∧
    ((percentDecode (splitPiece piece).1 = none ∧ (decode (splitPiece piece).1).1 ≠ []) ∨
      (percentDecode (splitPiece piece).1 ≠ none ∧ percentDecode (splitPiece piece).2 = none ∧
        (decode (splitPiece piece).2).1 ≠ []))

instance (piece : Bytes) : Decidable (PartlyDecoded piece) := inferInstanceAs (Decidable (_ ∧ _))

/-- Behind a piece of this kind no entry is left for the map. -/
def NothingAfter (kind : Bytes → Prop) (list : List Bytes) : Prop :=
  ∀ before piece after, list = before ++ piece :: after → kind piece →
    maxQueryStringParams ≤ (before.filterMap pieceEntry).length ∨
      after.filterMap pieceEntry = []

theorem pieceEntry_some {piece name value : Bytes} (someName : (splitPiece piece).1 ≠ [])
    (isName : percentDecode (splitPiece piece).1 = some name)
    (isValue : percentDecode (splitPiece piece).2 = some value) :
    pieceEntry piece = some (name, value) := by
  unfold pieceEntry
  dsimp only
  rw [if_neg someName, isName, isValue]

theorem pieceEntry_cases {piece : Bytes} {entry : Bytes × Bytes}
    (found : pieceEntry piece = some entry) :
    ∃ name value, percentDecode (splitPiece piece).1 = some name ∧
      percentDecode (splitPiece piece).2 = some value ∧ entry = (name, value) := by
  unfold pieceEntry at found
  dsimp only at found
  split at found
  · cases found
  · split at found
    · rename_i name value isName isValue
      cases found
      exact ⟨name, value, isName, isValue, rfl⟩
    · cases found

/-! ### Building -/

section

variable {wyhash : Bytes → UInt64}

/-- A parameter stands for an entry, in the bytes of a buffer up to a position. -/
structure Stored (wyhash : Bytes → UInt64) (buf : Bytes) (pos : Nat) (param : Param)
    (entry : Bytes × Bytes) : Prop where
  nameRange : param.name.offset + param.name.length ≤ pos
  name : param.name.read buf = entry.1
  valueRange : param.value.offset + param.value.length ≤ pos
  value : param.value.read buf = entry.2
  nameHash : param.nameHash = wyhash entry.1

/-- The list stands for these entries. -/
structure Holds (wyhash : Bytes → UInt64) (b : Building) (entries : List (Bytes × Bytes)) :
    Prop where
  within : b.bufWriterPos ≤ b.buf.length
  stored : List.Forall₂ (Stored wyhash b.buf b.bufWriterPos) b.list entries

/-- Later bytes in the buffer. -/
structure Extends (b later : Building) : Prop where
  list : later.list = b.list
  buf : ∃ more, later.buf = b.buf ++ more
  pos : b.bufWriterPos ≤ later.bufWriterPos
  within : later.bufWriterPos ≤ later.buf.length

theorem read_append {ptr : StringPointer} {text : Bytes} (inside : ptr.offset + ptr.length ≤ text.length)
    (more : Bytes) : ptr.read (text ++ more) = ptr.read text := by
  unfold StringPointer.read
  rw [List.drop_append_of_le_length (Nat.le_of_add_right_le inside),
    List.take_append_of_le_length (by rw [List.length_drop]; omega)]

theorem read_take {ptr : StringPointer} {text : Bytes} {n : Nat}
    (inside : ptr.offset + ptr.length ≤ n) : ptr.read (text.take n) = ptr.read text := by
  unfold StringPointer.read
  rw [List.drop_take, List.take_take, Nat.min_eq_left (by omega)]

/-- The bytes written last. -/
theorem read_last (text written : Bytes) :
    StringPointer.read ⟨text.length, written.length⟩ (text ++ written) = written := by
  have split : text ++ written = text ++ (written ++ []) := by rw [List.append_nil]
  exact read_part split

theorem exists_of_forall₂ {α β : Type} {R : α → β → Prop} {as : List α} {bs : List β}
    (related : List.Forall₂ R as bs) {a : α} (member : a ∈ as) : ∃ b ∈ bs, R a b := by
  induction related with
  | nil => cases member
  | @cons a' b as bs first others ih =>
      rcases List.mem_cons.mp member with same | behind
      · exact ⟨b, List.mem_cons_self, same ▸ first⟩
      · obtain ⟨found, inBs, relates⟩ := ih behind
        exact ⟨found, List.mem_cons_of_mem _ inBs, relates⟩

theorem Extends.trans {a b c : Building} (first : Extends a b) (second : Extends b c) :
    Extends a c := by
  obtain ⟨more, buf⟩ := first.buf
  obtain ⟨others, bufLater⟩ := second.buf
  exact ⟨second.list.trans first.list, ⟨more ++ others, by rw [bufLater, buf, List.append_assoc]⟩,
    Nat.le_trans first.pos second.pos, second.within⟩

theorem Stored.later {b later : Building} {param : Param} {entry : Bytes × Bytes}
    (stored : Stored wyhash b.buf b.bufWriterPos param entry)
    (within : b.bufWriterPos ≤ b.buf.length) (isLater : Extends b later) :
    Stored wyhash later.buf later.bufWriterPos param entry := by
  obtain ⟨more, buf⟩ := isLater.buf
  refine ⟨Nat.le_trans stored.nameRange isLater.pos, ?_,
    Nat.le_trans stored.valueRange isLater.pos, ?_, stored.nameHash⟩
  · rw [buf, read_append (Nat.le_trans stored.nameRange within), stored.name]
  · rw [buf, read_append (Nat.le_trans stored.valueRange within), stored.value]

theorem Holds.later {b later : Building} {entries : List (Bytes × Bytes)}
    (holds : Holds wyhash b entries) (isLater : Extends b later) :
    Holds wyhash later entries := by
  refine ⟨isLater.within, ?_⟩
  rw [isLater.list]
  exact holds.stored.imp fun _ _ stored => stored.later holds.within isLater

/-! ### Decoding into the buffer -/

theorem decodeInto_eq (b : Building) (input : Bytes) :
    b.decodeInto input =
      if (decode input).2 then
        ({ b with
            buf := b.buf ++ (decode input).1
            bufWriterPos := b.bufWriterPos + (decode input).1.length },
          some ⟨b.bufWriterPos, (decode input).1.length⟩)
      else ({ b with buf := b.buf ++ (decode input).1 }, none) := rfl

theorem decodeInto_some {b : Building} {input written : Bytes}
    (decodes : percentDecode input = some written) :
    b.decodeInto input =
      ({ b with buf := b.buf ++ written, bufWriterPos := b.bufWriterPos + written.length },
        some ⟨b.bufWriterPos, written.length⟩) := by
  rw [decode_eq] at decodes
  rw [decodeInto_eq]
  cases done : (decode input).2 with
  | true =>
      rw [done, if_pos rfl] at decodes
      cases decodes
      rfl
  | false =>
      rw [done] at decodes
      cases decodes

theorem decodeInto_none {b : Building} {input : Bytes} (malformed : percentDecode input = none) :
    b.decodeInto input = ({ b with buf := b.buf ++ (decode input).1 }, none) := by
  rw [decode_eq] at malformed
  rw [decodeInto_eq]
  cases done : (decode input).2 with
  | true =>
      rw [done] at malformed
      cases malformed
  | false => rfl

theorem decodeInto_extends {b : Building} (within : b.bufWriterPos ≤ b.buf.length)
    (input : Bytes) : Extends b (b.decodeInto input).1 := by
  rw [decodeInto_eq]
  split
  · refine ⟨rfl, ⟨_, rfl⟩, Nat.le_add_right _ _, ?_⟩
    rw [List.length_append]
    exact Nat.add_le_add_right within _
  · refine ⟨rfl, ⟨_, rfl⟩, Nat.le_refl _, ?_⟩
    rw [List.length_append]
    exact Nat.le_add_right_of_le within

/-! ### One turn -/

variable {queryString piece : Bytes} {result : ScannerResult} {b : Building}
  {entries : List (Bytes × Bytes)}

theorem addName_malformed (reads : Reads queryString result piece)
    (malformed : percentDecode (splitPiece piece).1 = none) :
    b.addName wyhash queryString result =
      ({ b with buf := b.buf ++ (decode (splitPiece piece).1).1 }, none) := by
  have flag : result.nameNeedsDecoding = true := by
    cases flag : result.nameNeedsDecoding with
    | true => rfl
    | false =>
        rw [reads.nameFlag] at flag
        rw [percentDecode_plain flag] at malformed
        cases malformed
  unfold Building.addName
  rw [if_pos flag, reads.name, decodeInto_none malformed]

/-- A name that is not malformed is found or written. -/
theorem addName_extends (reads : Reads queryString result piece)
    (within : b.bufWriterPos ≤ b.buf.length) {name : Bytes}
    (isName : percentDecode (splitPiece piece).1 = some name) :
    ∃ later found, b.addName wyhash queryString result = (later, some found) ∧
      Extends b later := by
  have written := decodeInto_extends within (splitPiece piece).1
  rw [decodeInto_some isName] at written
  unfold Building.addName
  rw [reads.name]
  dsimp only
  split
  · rw [decodeInto_some isName]
    exact ⟨_, _, rfl, written⟩
  · split
    · exact ⟨_, _, rfl, rfl, ⟨[], (List.append_nil _).symm⟩, Nat.le_refl _, within⟩
    · rw [decodeInto_some isName]
      exact ⟨_, _, rfl, written⟩

/-- A turn for a piece without an entry changes only the buffer. -/
theorem addResult_none (reads : Reads queryString result piece)
    (noEntry : pieceEntry piece = none) (within : b.bufWriterPos ≤ b.buf.length) :
    Extends b (addResult wyhash queryString b result) := by
  unfold addResult
  split
  · exact ⟨rfl, ⟨[], (List.append_nil _).symm⟩, Nat.le_refl _, within⟩
  · cases isName : percentDecode (splitPiece piece).1 with
    | none =>
        have longer := decodeInto_extends within (splitPiece piece).1
        rw [decodeInto_none isName] at longer
        rw [addName_malformed reads isName]
        exact longer
    | some name =>
        have badValue : percentDecode (splitPiece piece).2 = none := by
          cases isValue : percentDecode (splitPiece piece).2 with
          | none => rfl
          | some value =>
              rw [pieceEntry_some reads.someName isName isValue] at noEntry
              cases noEntry
        obtain ⟨later, ⟨ptr, hash⟩, added, isLater⟩ :
            ∃ later found, b.addName wyhash queryString result = (later, some found) ∧
              Extends b later := addName_extends reads within isName
        have longer := decodeInto_extends isLater.within (splitPiece piece).2
        rw [decodeInto_none badValue] at longer
        rw [added, reads.value]
        dsimp only
        rw [decodeInto_none badValue]
        exact isLater.trans longer

/-- The name of an entry, while the buffer is accounted for to its end. -/
theorem addName_holds (reads : Reads queryString result piece) (holds : Holds wyhash b entries)
    (inStep : b.buf.length = b.bufWriterPos) {name : Bytes}
    (isName : percentDecode (splitPiece piece).1 = some name)
    (injective : ∀ entry ∈ entries, wyhash entry.1 = wyhash name → entry.1 = name) :
    ∃ later ptr, b.addName wyhash queryString result = (later, some (ptr, wyhash name)) ∧
      Extends b later ∧ later.buf.length = later.bufWriterPos ∧
      ptr.offset + ptr.length ≤ later.bufWriterPos ∧ ptr.read later.buf = name := by
  let written : Building :=
    { b with buf := b.buf ++ name, bufWriterPos := b.bufWriterPos + name.length }
  have length : written.buf.length = written.bufWriterPos := by
    rw [List.length_append, inStep]
  have read : StringPointer.read ⟨b.bufWriterPos, name.length⟩ written.buf = name := by
    rw [← inStep]
    exact read_last b.buf name
  have longer : Extends b written :=
    ⟨rfl, ⟨name, rfl⟩, Nat.le_add_right _ _, Nat.le_of_eq length.symm⟩
  unfold Building.addName
  rw [reads.name]
  dsimp only
  cases flag : result.nameNeedsDecoding with
  | true =>
      rw [if_pos rfl, decodeInto_some isName]
      dsimp only
      refine ⟨written, _, ?_, longer, length, Nat.le_refl _, read⟩
      rw [read]
  | false =>
      have plain : name = (splitPiece piece).1 := by
        rw [reads.nameFlag] at flag
        rw [percentDecode_plain flag] at isName
        exact (Option.some.inj isName).symm
      rw [if_neg Bool.false_ne_true, ← plain]
      cases found : b.list.find? (fun param => decide (param.nameHash = wyhash name)) with
      | none =>
          rw [← plain] at isName
          dsimp only
          rw [decodeInto_some isName]
          exact ⟨written, _, rfl, longer, length, Nat.le_refl _, read⟩
      | some param =>
          have isFound := List.find?_some found
          have sameHash : param.nameHash = wyhash name := of_decide_eq_true isFound
          obtain ⟨entry, inEntries, stored⟩ :=
            exists_of_forall₂ holds.stored (List.mem_of_find?_eq_some found)
          have sameName : entry.1 = name :=
            injective entry inEntries (stored.nameHash.symm.trans sameHash)
          refine ⟨b, param.name, rfl, ?_, inStep, stored.nameRange, ?_⟩
          · exact ⟨rfl, ⟨[], (List.append_nil _).symm⟩, Nat.le_refl _, holds.within⟩
          · rw [stored.name, sameName]

/-- A turn for a piece with an entry, while there is room, adds it. -/
theorem addResult_some (reads : Reads queryString result piece) (holds : Holds wyhash b entries)
    (inStep : b.buf.length = b.bufWriterPos) (room : b.list.length < maxQueryStringParams)
    {name value : Bytes} (isName : percentDecode (splitPiece piece).1 = some name)
    (isValue : percentDecode (splitPiece piece).2 = some value)
    (injective : ∀ entry ∈ entries, wyhash entry.1 = wyhash name → entry.1 = name) :
    Holds wyhash (addResult wyhash queryString b result) (entries ++ [(name, value)]) ∧
      (addResult wyhash queryString b result).buf.length =
        (addResult wyhash queryString b result).bufWriterPos := by
  obtain ⟨later, ptr, added, isLater, laterInStep, range, read⟩ :=
    addName_holds reads holds inStep isName injective
  have longer := decodeInto_extends isLater.within (splitPiece piece).2
  have length : (later.buf ++ value).length = later.bufWriterPos + value.length := by
    rw [List.length_append, laterInStep]
  have valueRead : StringPointer.read ⟨later.bufWriterPos, value.length⟩ (later.buf ++ value) =
      value := by
    rw [← laterInStep]
    exact read_last later.buf value
  rw [decodeInto_some isValue] at longer
  unfold addResult
  rw [if_neg (Nat.not_le.mpr room), added, reads.value]
  dsimp only
  rw [decodeInto_some isValue]
  dsimp only
  refine ⟨⟨Nat.le_of_eq length.symm, ?_⟩, length⟩
  have before := ((holds.later isLater).later longer).stored
  have read' : ptr.read (later.buf ++ value) = name := by
    rw [read_append (by rw [laterInStep]; exact range), read]
  apply List.rel_append
  · exact before
  · exact List.Forall₂.cons
      ⟨Nat.le_add_right_of_le range, read', Nat.le_refl _, valueRead, rfl⟩ List.Forall₂.nil

/-- A turn for a piece that is malformed from its first byte on keeps the buffer accounted for. -/
theorem addResult_malformed (reads : Reads queryString result piece)
    (noEntry : pieceEntry piece = none) (notPartly : ¬PartlyDecoded piece)
    (holds : Holds wyhash b entries) (inStep : b.buf.length = b.bufWriterPos)
    (injective : ∀ name, percentDecode (splitPiece piece).1 = some name →
      ∀ entry ∈ entries, wyhash entry.1 = wyhash name → entry.1 = name) :
    (addResult wyhash queryString b result).buf.length =
      (addResult wyhash queryString b result).bufWriterPos := by
  unfold addResult
  split
  · exact inStep
  · cases isName : percentDecode (splitPiece piece).1 with
    | none =>
        have nothing : (decode (splitPiece piece).1).1 = [] := by
          by_contra some
          exact notPartly ⟨reads.someName, Or.inl ⟨isName, some⟩⟩
        rw [addName_malformed reads isName, nothing]
        dsimp only
        rw [List.append_nil]
        exact inStep
    | some name =>
        have badValue : percentDecode (splitPiece piece).2 = none := by
          cases isValue : percentDecode (splitPiece piece).2 with
          | none => rfl
          | some value =>
              rw [pieceEntry_some reads.someName isName isValue] at noEntry
              cases noEntry
        have nothing : (decode (splitPiece piece).2).1 = [] := by
          by_contra some
          exact notPartly ⟨reads.someName, Or.inr
            ⟨by rw [isName]; exact Option.some_ne_none _, badValue, some⟩⟩
        obtain ⟨later, ptr, added, _, laterInStep, _⟩ :=
          addName_holds reads holds inStep isName (injective name isName)
        rw [added, reads.value]
        dsimp only
        rw [decodeInto_none badValue, nothing]
        dsimp only
        rw [List.append_nil]
        exact laterInStep

theorem addResult_full (room : maxQueryStringParams ≤ b.list.length) :
    addResult wyhash queryString b result = b := if_pos room

/-! ### The loop -/

theorem foldl_full : ∀ {results : List ScannerResult} {b : Building},
    maxQueryStringParams ≤ b.list.length →
      results.foldl (addResult wyhash queryString) b = b
  | [], _, _ => rfl
  | result :: results, b, full => by
      rw [List.foldl_cons, addResult_full full]
      exact foldl_full full

/-- Pieces without entries leave what the list stands for. -/
theorem foldl_none {results : List ScannerResult} {list : List Bytes}
    (reads : List.Forall₂ (Reads queryString) results list) : ∀ {b : Building},
      list.filterMap pieceEntry = [] → Holds wyhash b entries →
        Holds wyhash (results.foldl (addResult wyhash queryString) b) entries := by
  induction reads with
  | nil => exact fun _ holds => holds
  | @cons result piece results list first others ih =>
      intro b none holds
      cases entry : pieceEntry piece with
      | some found =>
          rw [List.filterMap_cons_some entry] at none
          cases none
      | none =>
          rw [List.filterMap_cons_none entry] at none
          exact ih none (holds.later (addResult_none first entry holds.within))

/-- The loop over pieces of which none that the code stumbles over stands before an entry. -/
theorem foldl_holds {names : List Bytes}
    (injective : ∀ name ∈ names, ∀ other ∈ names, wyhash name = wyhash other → name = other)
    {results : List ScannerResult} {list : List Bytes}
    (reads : List.Forall₂ (Reads queryString) results list) :
    ∀ {b : Building} {entries : List (Bytes × Bytes)},
      (∀ before piece after, list = before ++ piece :: after → PartlyDecoded piece →
        maxQueryStringParams ≤ (entries ++ before.filterMap pieceEntry).length ∨
          after.filterMap pieceEntry = []) →
      (∀ piece ∈ list, ∀ name, percentDecode (splitPiece piece).1 = some name → name ∈ names) →
      (∀ entry ∈ entries, entry.1 ∈ names) →
      Holds wyhash b entries → b.buf.length = b.bufWriterPos →
      entries.length ≤ maxQueryStringParams →
        Holds wyhash (results.foldl (addResult wyhash queryString) b)
          ((entries ++ list.filterMap pieceEntry).take maxQueryStringParams) := by
  induction reads with
  | nil =>
      intro b entries _ _ _ holds _ few
      rw [List.filterMap_nil, List.append_nil, List.take_of_length_le few]
      exact holds
  | @cons result piece results list first others ih =>
      intro b entries nothingAfter pieceNames entryNames holds inStep few
      have sameLength := holds.stored.length_eq
      rw [List.foldl_cons]
      by_cases full : maxQueryStringParams ≤ b.list.length
      · rw [addResult_full full, foldl_full full,
          List.take_append_of_le_length (by rw [← sameLength]; exact full),
          List.take_of_length_le few]
        exact holds
      have room := Nat.not_le.mp full
      have inNames := pieceNames piece List.mem_cons_self
      have otherNames := fun next member => pieceNames next (List.mem_cons_of_mem piece member)
      have hashes : ∀ name, percentDecode (splitPiece piece).1 = some name →
          ∀ entry ∈ entries, wyhash entry.1 = wyhash name → entry.1 = name :=
        fun name isName entry inEntries =>
          injective entry.1 (entryNames entry inEntries) name (inNames name isName)
      cases found : pieceEntry piece with
      | none =>
          have fewer : Extends b (addResult wyhash queryString b result) :=
            addResult_none first found holds.within
          have later := holds.later fewer
          rw [List.filterMap_cons_none found]
          by_cases partly : PartlyDecoded piece
          · -- from here on no piece has an entry
            have ends : list.filterMap pieceEntry = [] := by
              rcases nothingAfter [] piece list rfl partly with many | none
              · rw [List.filterMap_nil, List.append_nil, ← sameLength] at many
                exact absurd many full
              · exact none
            rw [ends, List.append_nil, List.take_of_length_le few]
            exact foldl_none others ends later
          · have stepped := addResult_malformed first found partly holds inStep hashes
            refine ih ?_ otherNames entryNames later stepped few
            intro before next after split isPartly
            have tail := nothingAfter (piece :: before) next after (congrArg _ split) isPartly
            rwa [List.filterMap_cons_none found] at tail
      | some entry =>
          obtain ⟨name, value, isName, isValue, rfl⟩ := pieceEntry_cases found
          obtain ⟨added, stepped⟩ :=
            addResult_some first holds inStep room isName isValue (hashes name isName)
          rw [List.filterMap_cons_some found, ← List.singleton_append, ← List.append_assoc]
          refine ih ?_ otherNames ?_ added stepped ?_
          · intro before next after split isPartly
            have tail := nothingAfter (piece :: before) next after (congrArg _ split) isPartly
            rwa [List.filterMap_cons_some found, ← List.singleton_append,
              ← List.append_assoc] at tail
          · intro entry member
            rcases List.mem_append.mp member with before | last
            · exact entryNames entry before
            · rw [List.mem_singleton.mp last]
              exact inNames name isName
          · rw [List.length_append, List.length_singleton, ← sameLength]
            exact room

/-! ### The map -/

theorem pairs_stored {list : List Param} {buf : Bytes} {pos : Nat}
    (within : pos ≤ buf.length)
    (stored : List.Forall₂ (Stored wyhash buf pos) list entries) :
    QueryStringMap.pairs ⟨list, buf.take pos⟩ = some entries := by
  have length : (buf.take pos).length = pos := by
    rw [List.length_take, Nat.min_eq_left within]
  unfold QueryStringMap.pairs
  dsimp only
  induction stored with
  | nil => rfl
  | @cons param entry list entries first others ih =>
      have name : QueryStringMap.str ⟨param :: list, buf.take pos⟩ param.name = some entry.1 := by
        rw [QueryStringMap.str, length, if_pos first.nameRange, read_take first.nameRange,
          first.name]
      have value : QueryStringMap.str ⟨param :: list, buf.take pos⟩ param.value =
          some entry.2 := by
        rw [QueryStringMap.str, length, if_pos first.valueRange, read_take first.valueRange,
          first.value]
      have tail : (list.mapM fun param' => do
          let name ← QueryStringMap.str ⟨param :: list, buf.take pos⟩ param'.name
          let value ← QueryStringMap.str ⟨param :: list, buf.take pos⟩ param'.value
          some (name, value)) = some entries := ih
      rw [List.mapM_cons, name, value, tail]
      rfl

/-- Where no piece needs decoding, the entries are the pieces themselves. -/
theorem take_plain : ∀ (n : Nat) (list : List Bytes),
    (∀ piece ∈ list.take n, pieceEntry piece = some (splitPiece piece)) →
      (list.filterMap pieceEntry).take n = (list.take n).map splitPiece
  | 0, _, _ => rfl
  | _ + 1, [], _ => rfl
  | n + 1, piece :: list, plain => by
      rw [List.take_succ_cons] at plain
      rw [List.filterMap_cons_some (plain piece List.mem_cons_self), List.take_succ_cons,
        List.take_succ_cons, List.map_cons,
        take_plain n list fun next member => plain next (List.mem_cons_of_mem _ member)]

/-- Where nothing is decoded the map points into the query string. -/
theorem pairs_plain {list : List Bytes} {results : List ScannerResult}
    (reads : List.Forall₂ (Reads queryString) results list)
    (plain : ∀ result ∈ results,
      (!result.nameNeedsDecoding && !result.valueNeedsDecoding) = true) :
    List.Forall₂ (Stored wyhash queryString queryString.length)
        (results.map fun result =>
          ⟨result.name, result.value, wyhash (result.name.read queryString)⟩)
        (list.map splitPiece) ∧
      ∀ piece ∈ list, pieceEntry piece = some (splitPiece piece) := by
  induction reads with
  | nil => exact ⟨List.Forall₂.nil, fun _ member => absurd member List.not_mem_nil⟩
  | @cons result piece results list first others ih =>
      have flags := plain result List.mem_cons_self
      rw [Bool.and_eq_true, Bool.not_eq_true', Bool.not_eq_true', first.nameFlag,
        first.valueFlag] at flags
      obtain ⟨stored, entries⟩ := ih fun next member =>
        plain next (List.mem_cons_of_mem _ member)
      refine ⟨List.Forall₂.cons ?_ stored, ?_⟩
      · exact ⟨first.nameRange, first.name, first.valueRange, first.value,
          congrArg wyhash first.name⟩
      · intro next member
        rcases List.mem_cons.mp member with same | behind
        · rw [same]
          exact pieceEntry_some first.someName (percentDecode_plain flags.1)
            (percentDecode_plain flags.2)
        · exact entries next behind

/-! ### Pieces that are scanned -/

theorem filterMap_nonempty (list : List Bytes) :
    (list.filter fun piece => !piece.isEmpty).filterMap pieceEntry =
      list.filterMap pieceEntry := by
  induction list with
  | nil => rfl
  | cons piece list ih =>
      cases piece with
      | nil => exact ih
      | cons c rest =>
          rw [List.filter_cons_of_pos (by rfl), List.filterMap_cons, List.filterMap_cons,
            ih]

/-- The scanned pieces are those before the first value without a name. -/
theorem scannedPieces_front (list : List Bytes) : ∃ before after, list = before ++ after ∧
    scannedPieces list = (before.filter fun piece => !piece.isEmpty) ∧
      (∀ piece ∈ before, isBareValue piece = false) ∧
        ∀ piece, after.head? = some piece → isBareValue piece = true := by
  induction list with
  | nil => exact ⟨[], [], rfl, rfl, fun _ member => absurd member List.not_mem_nil,
      fun _ none => by cases none⟩
  | cons piece list ih =>
      cases bare : isBareValue piece with
      | true =>
          refine ⟨[], piece :: list, rfl, scannedPieces_bare bare list,
            fun _ member => absurd member List.not_mem_nil, ?_⟩
          intro first same
          cases same
          exact bare
      | false =>
          obtain ⟨before, after, split, scanned, named, stops⟩ := ih
          refine ⟨piece :: before, after, congrArg (piece :: ·) split, ?_, ?_, stops⟩
          · cases piece with
            | nil => exact scanned
            | cons c rest =>
                rw [scannedPieces_named (List.cons_ne_nil c rest) bare, scanned]
                rfl
          · intro next member
            rcases List.mem_cons.mp member with same | behind
            · rw [same]
              exact bare
            · exact named next behind

/-- A piece among those kept stands among all of them. -/
theorem split_filter {keep : Bytes → Bool} {piece : Bytes} {kept : List Bytes} :
    ∀ {list before : List Bytes}, list.filter keep = before ++ piece :: kept →
      ∃ front back, list = front ++ piece :: back ∧ front.filter keep = before ∧
        back.filter keep = kept := by
  intro list before same
  obtain ⟨front, others, split, fronts, rest⟩ := List.filter_eq_append_iff.mp same
  obtain ⟨passed, back, others', none, _, backs⟩ := List.filter_eq_cons_iff.mp rest
  refine ⟨front ++ passed, back, ?_, ?_, backs⟩
  · rw [split, others', List.append_assoc]
  · rw [List.filter_append, fronts, List.filter_eq_nil_iff.mpr none, List.append_nil]

/-- What the map holds are the entries of the pieces that the scanner gets to. -/
theorem init_scanned {queryString : Bytes}
    (injective : ∀ name ∈ (pieces queryString).filterMap fun piece =>
        percentDecode (splitPiece piece).1,
      ∀ other ∈ (pieces queryString).filterMap fun piece => percentDecode (splitPiece piece).1,
        wyhash name = wyhash other → name = other)
    (partly : NothingAfter PartlyDecoded (pieces queryString)) :
    initPairs wyhash queryString =
      some (((scannedPieces (pieces queryString)).filterMap pieceEntry).take
        maxQueryStringParams) := by
  have reads := results_read queryString
  have counted := List.forall₂_take maxQueryStringParams reads
  obtain ⟨front, back, split, scanned, _⟩ := scannedPieces_front (pieces queryString)
  have inFront : ∀ piece ∈ scannedPieces (pieces queryString), piece ∈ pieces queryString := by
    intro piece member
    rw [scanned] at member
    rw [split]
    exact List.mem_append_left _ (List.mem_filter.mp member).1
  unfold initPairs init
  dsimp only
  by_cases nothing : (results queryString).take maxQueryStringParams = []
  · have noResults : results queryString = [] := by
      rcases List.take_eq_nil_iff.mp nothing with zero | empty
      · cases zero
      · exact empty
    rw [noResults] at reads
    rw [if_pos nothing, List.forall₂_nil_left_iff.mp reads]
    rfl
  rw [if_neg nothing]
  by_cases plain : ((results queryString).take maxQueryStringParams).all (fun result =>
      !result.nameNeedsDecoding && !result.valueNeedsDecoding) = true
  · rw [if_pos plain]
    obtain ⟨stored, entries⟩ := pairs_plain counted (List.all_eq_true.mp plain)
    have pairs := pairs_stored (Nat.le_refl queryString.length) stored
    rw [List.take_length] at pairs
    rw [take_plain _ _ entries]
    exact pairs
  · rw [if_neg plain]
    have start : Holds wyhash {} [] := ⟨Nat.le_refl 0, List.Forall₂.nil⟩
    have names : ∀ piece ∈ scannedPieces (pieces queryString), ∀ name,
        percentDecode (splitPiece piece).1 = some name →
          name ∈ (pieces queryString).filterMap fun piece =>
            percentDecode (splitPiece piece).1 :=
      fun piece member name isName =>
        List.mem_filterMap.mpr ⟨piece, inFront piece member, isName⟩
    have nothingAfter : ∀ before piece after,
        scannedPieces (pieces queryString) = before ++ piece :: after → PartlyDecoded piece →
          maxQueryStringParams ≤ ([] ++ before.filterMap pieceEntry).length ∨
            after.filterMap pieceEntry = [] := by
      intro before piece after same isPartly
      rw [scanned] at same
      obtain ⟨earlier, later, splitFront, isBefore, isAfter⟩ := split_filter same
      rw [splitFront, List.append_assoc, List.cons_append] at split
      rw [← isBefore, ← isAfter, filterMap_nonempty, filterMap_nonempty, List.nil_append]
      rcases partly earlier piece (later ++ back) split isPartly with many | nothing
      · exact Or.inl many
      · rw [List.filterMap_append, List.append_eq_nil_iff] at nothing
        exact Or.inr nothing.1
    have holds := foldl_holds injective reads nothingAfter names
      (fun _ member => absurd member List.not_mem_nil) start rfl (Nat.zero_le _)
    exact pairs_stored holds.within holds.stored

/-- Taking some of a list and of a longer one gives the same only where nothing is missed. -/
theorem take_append_eq {α : Type} {front back : List α} {n : Nat} :
    (front ++ back).take n = front.take n ↔ n ≤ front.length ∨ back = [] := by
  constructor
  · intro same
    rcases Nat.lt_or_ge front.length n with short | long
    · rw [List.take_append, List.take_of_length_le (Nat.le_of_lt short)] at same
      have none := List.append_right_eq_self.mp same
      rcases List.take_eq_nil_iff.mp none with zero | empty
      · omega
      · exact Or.inr empty
    · exact Or.inl long
  · rintro (long | empty)
    · rw [List.take_append_of_le_length long]
    · rw [empty, List.append_nil]

/-- The reference is cut at the first value without a name. -/
theorem scanned_reference (list : List Bytes) :
    ((scannedPieces list).filterMap pieceEntry).take maxQueryStringParams =
        (list.filterMap pieceEntry).take maxQueryStringParams ↔
      NothingAfter (fun piece => isBareValue piece = true) list := by
  obtain ⟨front, back, rfl, scanned, named, stops⟩ := scannedPieces_front list
  rw [scanned, filterMap_nonempty, List.filterMap_append, eq_comm, take_append_eq]
  have bareEntry {piece : Bytes} (bare : isBareValue piece = true) : pieceEntry piece = none := by
    cases piece with
    | nil => rfl
    | cons c value =>
        unfold isBareValue at bare
        rw [List.head?_cons, beq_iff_eq, Option.some.injEq] at bare
        rw [bare]
        rfl
  constructor
  · intro cut before piece after same bare
    rcases List.append_eq_append_iff.mp same with ⟨more, longer, rest⟩ | ⟨more, longer, rest⟩
    · rw [longer, List.filterMap_append, List.length_append]
      rcases cut with many | nothing
      · exact Or.inl (Nat.le_add_right_of_le many)
      · rw [rest, List.filterMap_append, List.append_eq_nil_iff,
          List.filterMap_cons_none (bareEntry bare)] at nothing
        exact Or.inr nothing.2
    · cases more with
      | nil =>
          rw [List.append_nil] at longer
          rw [List.nil_append] at rest
          rw [← rest, List.filterMap_cons_none (bareEntry bare)] at cut
          rw [longer] at cut
          exact cut
      | cons first others =>
          rw [List.cons_append, List.cons.injEq] at rest
          have inFront : piece ∈ front := by
            rw [longer, rest.1]
            exact List.mem_append_right _ List.mem_cons_self
          rw [named piece inFront] at bare
          cases bare
  · intro nothingAfter
    cases back with
    | nil => exact Or.inr rfl
    | cons piece after =>
        have bare := stops piece rfl
        rw [List.filterMap_cons_none (bareEntry bare)]
        exact nothingAfter front piece after rfl bare

end

/-- While no piece that is malformed behind decoded bytes stands before an entry, the map holds
the pairs of the reference exactly when no value without a name stands before one. -/
theorem init_reference (wyhash : Bytes → UInt64) (queryString : Bytes)
    (injective : ∀ name ∈ (pieces queryString).filterMap fun piece =>
        percentDecode (splitPiece piece).1,
      ∀ other ∈ (pieces queryString).filterMap fun piece => percentDecode (splitPiece piece).1,
        wyhash name = wyhash other → name = other)
    (partly : NothingAfter PartlyDecoded (pieces queryString)) :
    initPairs wyhash queryString = some (referencePairs queryString) ↔
      NothingAfter (fun piece => isBareValue piece = true) (pieces queryString) := by
  rw [init_scanned injective partly, Option.some.injEq]
  exact scanned_reference (pieces queryString)

/-- The hash of a name of one to three bytes. -/
def wyhashShort (input : Bytes) : UInt64 :=
  let mix (a b : Nat) : Nat := (a * b) % 2 ^ 64 ^^^ (a * b) / 2 ^ 64
  let byteAt (i : Nat) : Nat := (input.getD i 0).toNat
  let state := mix 0xa0761d6478bd642f 0xe7037ed1a0b428db
  let a := byteAt 0 * 65536 ||| byteAt (input.length / 2) * 256 ||| byteAt (input.length - 1)
  let x := (a ^^^ 0xe7037ed1a0b428db) * state
  UInt64.ofNat
    (mix (x % 2 ^ 64 ^^^ 0xa0761d6478bd642f ^^^ input.length) (x / 2 ^ 64 ^^^ 0xe7037ed1a0b428db))

/-- The text of a query string. -/
def queryText (s : String) : Bytes := s.toList.map fun c => UInt8.ofNat c.toNat

theorem nothingAfter_of_none {kind : Bytes → Prop} {list : List Bytes}
    (noKind : ∀ piece ∈ list, ¬kind piece) : NothingAfter kind list := by
  intro before piece after split isKind
  rw [split] at noKind
  exact absurd isKind (noKind piece (List.mem_append_right _ List.mem_cons_self))

/-- `?a=%20&b=1&a=c` is read as it should be. -/
theorem init_reference_sample :
    initPairs wyhashShort (queryText "?a=%20&b=1&a=c") =
      some (referencePairs (queryText "?a=%20&b=1&a=c")) := by
  apply (init_reference wyhashShort (queryText "?a=%20&b=1&a=c") (by decide +kernel)
    (nothingAfter_of_none ?_)).mpr (nothingAfter_of_none ?_)
  · decide +kernel
  · decide +kernel

/-- `a%zz=1&b=%20` shifts the name of the second piece, and `=1&a=2` loses it. -/
theorem init_cuts :
    initPairs wyhashShort (queryText "a%zz=1&b=%20") ≠
        some (referencePairs (queryText "a%zz=1&b=%20")) ∧
      initPairs wyhashShort (queryText "=1&a=2") ≠
        some (referencePairs (queryText "=1&a=2")) := by
  constructor
  · decide +kernel
  · decide +kernel

end Bunx.Url
