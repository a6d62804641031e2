/-
Module: Bunx.Bundler.OutputText
Purpose: The output of a chunk is its text with each key replaced, exactly when both passes find
  the same length.
Trusted boundary: none
Main exports: Replaced, replaced, replacedText, Fits, excess, placeholders_replaced_iff,
  parent_path_not_filled
-/
import Bunx.Bundler.ClosingTags
import Bunx.Bundler.OutputKeys

namespace Bunx.Bundler

open Bunx.Lib Bunx.Paths Bunx.SourceMap.TextOffset

/-! ### What keys are replaced by -/

/-- The text that is written for a key, and the texts by which the offset of the output is
moved. -/
structure Replaced where
  text : Bytes
  after : List Bytes

section Replace

variable (tables : OutputTables) (options : OutputOptions)

/-- The content that is inlined, with its closing tags escaped, or the manifest, or the prefix
and the relative path. -/
def replaced (query : Query) : Option Replaced := do
  match ← inlineContent tables options query with
  | some content =>
      if query.kind = .chunk then do
        let closeTag ← (← tables.chunks[query.index]?).closingTagForContent
        return { text := escapeClosingTags (closeTag.drop 2) content, after := [content] }
      else return { text := content, after := [content] }
  | none =>
      if query.kind = .htmlImport then
        return { text := (tables.manifestWrites query.index).flatten, after := [] }
      else do
        let path ← filePath tables query
        if path.length > options.pathBuffer then none
        else do
          let parts ← prefixedPath options (platformToPosixInPlace options.windows path)
          return { text := parts.1 ++ parts.2, after := [parts.1, parts.2] }

def replacedAt (piece : OutputPiece) : Option Replaced :=
  if piece.query.kind = .none then some { text := [], after := [] }
  else replaced tables options piece.query

/-- The text with each key replaced. -/
def replacedText : List OutputPiece → Option Bytes
  | [] => some []
  | piece :: pieces => do
      let here ← replacedAt tables options piece
      let rest ← replacedText pieces
      return piece.data ++ here.text ++ rest

/-- What is counted in the first pass. -/
def countedLength : List OutputPiece → Option Nat
  | [] => some 0
  | piece :: pieces => do
      let here ← countQuery tables options piece.query
      let rest ← countedLength pieces
      return piece.data.length + here + rest

variable {tables options}

theorem countFold_eq (pieces : List OutputPiece) (count : Nat) :
    pieces.foldlM (fun count piece => do
      return count + piece.data.length + (← countQuery tables options piece.query)) count =
      (countedLength tables options pieces).map (count + ·) := by
  induction pieces generalizing count with
  | nil => rfl
  | cons piece pieces ih =>
      rw [List.foldlM_cons, countedLength]
      cases here : countQuery tables options piece.query with
      | none => rfl
      | some n =>
          refine (ih (count + piece.data.length + n)).trans ?_
          cases countedLength tables options pieces with
          | none => rfl
          | some rest => simp [Nat.add_assoc]

theorem countPieces_eq (pieces : List OutputPiece) :
    countPieces tables options pieces = countedLength tables options pieces := by
  rw [countPieces, countFold_eq]
  cases countedLength tables options pieces with
  | none => rfl
  | some n => simp

/-! ### The second pass -/

/-- What the second pass has done behind a piece. -/
def Written.behind (written : Written) (piece : OutputPiece) (key : Bytes) (after : List Bytes)
    (out : Bytes) : Written :=
  let shift : SourceMapShifts :=
    { before := (written.shift.before.advance piece.data).advance key
      after := after.foldl LineColumnOffset.advance (written.shift.after.advance piece.data) }
  { out := out, shift := shift
    shifts := if piece.query.kind = .none then written.shifts else written.shifts ++ [shift] }

def keyAt (tables : OutputTables) (options : OutputOptions) (enable : Bool)
    (piece : OutputPiece) : Option Bytes :=
  if piece.query.kind = .none then some [] else shiftedKey tables options enable piece.query

theorem writeQuery_eq {cap : Nat} {written : Written} (fits : written.out.length ≤ cap)
    (query : Query) :
    writeQuery tables options cap written query = (replaced tables options query).bind fun here =>
      (put cap written.out here.text).map fun out =>
        Written.push { written with
          out := out
          shift := { written.shift with
            after := here.after.foldl LineColumnOffset.advance written.shift.after } } := by
  unfold writeQuery replaced
  simp only [Option.bind_eq_bind, Option.pure_def]
  cases inlineContent tables options query with
  | none => rfl
  | some content =>
      rw [Option.bind_some, Option.bind_some]
      cases content with
      | some content =>
          dsimp only
          by_cases isChunk : query.kind = .chunk
          · rw [if_pos isChunk, if_pos isChunk]
            cases tables.chunks[query.index]? with
            | none => rfl
            | some chunk =>
                simp only [Option.bind_some]
                cases chunk.closingTagForContent with
                | none => rfl
                | some closeTag =>
                    simp only [Option.bind_some, memcpyEscapingClosingTags_eq]
                    cases put cap written.out (escapeClosingTags (closeTag.drop 2) content) with
                    | none => rfl
                    | some out => rfl
          · rw [if_neg isChunk, if_neg isChunk, Option.bind_some]
            cases put cap written.out content with
            | none => rfl
            | some out => rfl
      | none =>
          dsimp only
          by_cases isHtml : query.kind = .htmlImport
          · rw [if_pos isHtml, if_pos isHtml, foldlM_put _ fits, Option.bind_some]
            cases put cap written.out (tables.manifestWrites query.index).flatten with
            | none => rfl
            | some out => rfl
          · rw [if_neg isHtml, if_neg isHtml]
            cases filePath tables query with
            | none => rfl
            | some path =>
                simp only [Option.bind_some]
                split
                · rfl
                · cases prefixedPath options (platformToPosixInPlace options.windows path) with
                  | none => rfl
                  | some parts =>
                      simp only [Option.bind_some, ← put_append]
                      cases put cap written.out parts.1 with
                      | none => rfl
                      | some middle =>
                          simp only [Option.bind_some]
                          cases put cap middle parts.2 with
                          | none => rfl
                          | some out => rfl

theorem advance_nil (this : LineColumnOffset) : this.advance [] = this := rfl

/-- A piece is written when its text, and what its key is replaced by, still fit. -/
theorem writePiece_eq_some_iff {enable : Bool} {cap : Nat} {written next : Written}
    {piece : OutputPiece} :
    writePiece tables options enable cap written piece = some next ↔
      ∃ key here out, keyAt tables options enable piece = some key ∧
        replacedAt tables options piece = some here ∧
        put cap written.out (piece.data ++ here.text) = some out ∧
        next = written.behind piece key here.after out := by
  unfold writePiece keyAt replacedAt
  simp only [Option.bind_eq_bind, Option.pure_def, Option.bind_eq_some_iff,
    ← LineColumnOffset.advance_eq_add]
  by_cases isNone : piece.query.kind = .none
  · simp only [if_pos isNone, Option.some.injEq]
    constructor
    · rintro ⟨out, isPut, rfl⟩
      refine ⟨[], ⟨[], []⟩, out, rfl, rfl, ?_, ?_⟩
      · rw [List.append_nil]
        exact isPut
      · simp [Written.behind, isNone, advance_nil]
    · rintro ⟨key, here, out, rfl, rfl, isPut, rfl⟩
      rw [List.append_nil] at isPut
      refine ⟨out, isPut, ?_⟩
      simp [Written.behind, isNone, advance_nil]
  · simp only [if_neg isNone, ← put_append, Option.bind_eq_some_iff]
    constructor
    · rintro ⟨out, isPut, key, isKey, isWritten⟩
      obtain ⟨rfl, fits⟩ := put_eq_some isPut
      rw [writeQuery_eq (by rwa [List.length_append])] at isWritten
      obtain ⟨here, isHere, isWritten⟩ := Option.bind_eq_some_iff.mp isWritten
      obtain ⟨all, isPutText, rfl⟩ := Option.map_eq_some_iff.mp isWritten
      refine ⟨key, here, all, isKey, isHere, ⟨_, isPut, isPutText⟩, ?_⟩
      simp [Written.behind, Written.push, isNone]
    · rintro ⟨key, here, all, isKey, isHere, ⟨out, isPut, isPutText⟩, rfl⟩
      obtain ⟨rfl, fits⟩ := put_eq_some isPut
      refine ⟨_, isPut, key, isKey, ?_⟩
      rw [writeQuery_eq (by rwa [List.length_append]), isHere, Option.bind_some, isPutText]
      simp [Written.behind, Written.push, isNone]

/-- All pieces are written when the whole text fits. -/
theorem writeFold_out {enable : Bool} {cap : Nat} {pieces : List OutputPiece} {written : Written}
    (fits : written.out.length ≤ cap)
    (keys : ∀ piece ∈ pieces, ∃ key, keyAt tables options enable piece = some key) {out : Bytes} :
    (∃ next, pieces.foldlM (writePiece tables options enable cap) written = some next ∧
      next.out = out) ↔
      ∃ text, replacedText tables options pieces = some text ∧
        put cap written.out text = some out := by
  induction pieces generalizing written with
  | nil =>
      constructor
      · rintro ⟨next, ⟨⟩, rfl⟩
        exact ⟨[], rfl, put_nil fits⟩
      · rintro ⟨text, ⟨⟩, isPut⟩
        rw [put_nil fits] at isPut
        exact ⟨written, rfl, Option.some.inj isPut⟩
  | cons piece pieces ih =>
      have restKeys := fun other member => keys other (List.mem_cons_of_mem _ member)
      constructor
      · rintro ⟨next, isFold, isOut⟩
        rw [List.foldlM_cons, Option.bind_eq_bind, Option.bind_eq_some_iff] at isFold
        obtain ⟨middle, isFirst, isRest⟩ := isFold
        obtain ⟨key, here, middleOut, _, isHere, isPut, rfl⟩ := writePiece_eq_some_iff.mp isFirst
        obtain ⟨isMiddle, inside⟩ := put_eq_some isPut
        have middleFits : (written.behind piece key here.after middleOut).out.length ≤ cap := by
          show middleOut.length ≤ cap
          rwa [isMiddle, List.length_append]
        obtain ⟨rest, isRestText, isPutRest⟩ :=
          (ih middleFits restKeys).mp ⟨next, isRest, isOut⟩
        refine ⟨piece.data ++ here.text ++ rest, ?_, ?_⟩
        · simp [replacedText, isHere, isRestText]
        · rw [← put_append, isPut]
          exact isPutRest
      · rintro ⟨text, isText, isPut⟩
        rw [replacedText, Option.bind_eq_bind, Option.bind_eq_some_iff] at isText
        obtain ⟨here, isHere, isText⟩ := isText
        rw [Option.bind_eq_bind, Option.bind_eq_some_iff] at isText
        obtain ⟨rest, isRestText, ⟨⟩⟩ := isText
        rw [← put_append, Option.bind_eq_some_iff] at isPut
        obtain ⟨middleOut, isPutHere, isPutRest⟩ := isPut
        obtain ⟨isMiddle, inside⟩ := put_eq_some isPutHere
        obtain ⟨key, isKey⟩ := keys piece (List.mem_cons_self ..)
        have isFirst : writePiece tables options enable cap written piece =
            some (written.behind piece key here.after middleOut) :=
          writePiece_eq_some_iff.mpr ⟨key, here, middleOut, isKey, isHere, isPutHere, rfl⟩
        have middleFits : (written.behind piece key here.after middleOut).out.length ≤ cap := by
          show middleOut.length ≤ cap
          rwa [isMiddle, List.length_append]
        obtain ⟨next, isRest, isOut⟩ :=
          (ih middleFits restKeys).mpr ⟨rest, isRestText, isPutRest⟩
        refine ⟨next, ?_, isOut⟩
        rw [List.foldlM_cons, isFirst]
        exact isRest

/-! ### The two passes together -/

/-- The comment behind the text, where there are shifts. -/
def debugIdOf (options : OutputOptions) (enable : Bool) : Bytes :=
  if enable then debugIdComment options.chunk.isolatedHash else []

/-- The output is the text with its keys replaced when its length has been counted. -/
theorem codeOfPieces_iff {enable : Bool} {pieces : List OutputPiece}
    (keys : ∀ piece ∈ pieces, ∃ key, keyAt tables options enable piece = some key) :
    (∃ result text, codeOfPieces tables options enable pieces = some result ∧
      replacedText tables options pieces = some text ∧
      result.buffer = text ++ debugIdOf options enable) ↔
      ∃ text, replacedText tables options pieces = some text ∧
        countedLength tables options pieces = some text.length := by
  simp only [codeOfPieces, countPieces_eq, Option.bind_eq_bind, Option.pure_def,
    Option.bind_eq_some_iff]
  constructor
  · rintro ⟨result, text, ⟨count, isCount, written, isFold, out, isPut, ⟨⟩⟩, isText, isBuffer⟩
    obtain ⟨isOut, inside⟩ := put_eq_some isPut
    obtain ⟨whole, isWhole, isWritten⟩ :=
      (writeFold_out (Nat.zero_le _) keys).mp ⟨written, isFold, rfl⟩
    rw [isText] at isWhole
    obtain rfl := Option.some.inj isWhole
    obtain ⟨isText', _⟩ := put_eq_some isWritten
    rw [List.nil_append] at isText'
    have filled : filledBuffer (count + (debugIdOf options enable).length) out =
        text ++ debugIdOf options enable := isBuffer
    have same : out = text ++ debugIdOf options enable := by
      rw [isOut, isText']
      rfl
    have lengths := congrArg List.length filled
    rw [filledBuffer, List.length_append, List.length_replicate, same, List.length_append]
      at lengths
    have enough : (text ++ debugIdOf options enable).length ≤
        count + (debugIdOf options enable).length := by
      rw [← same, isOut, List.length_append]
      exact inside
    rw [List.length_append] at enough
    refine ⟨text, isText, ?_⟩
    rw [isCount]
    congr 1
    omega
  · rintro ⟨text, isText, isCount⟩
    have textFits : put (text.length + (debugIdOf options enable).length) [] text = some text := by
      simp [put]
    have run : ∃ next, pieces.foldlM (writePiece tables options enable
          (text.length + (debugIdOf options enable).length))
          { out := [], shift := { before := .zero, after := .zero }
            shifts := [{ before := .zero, after := .zero }] } = some next ∧ next.out = text :=
      (writeFold_out (Nat.zero_le _) keys).mpr ⟨text, isText, textFits⟩
    obtain ⟨written, isFold, isOut⟩ := run
    have isPut : put (text.length + (debugIdOf options enable).length) written.out
        (debugIdOf options enable) = some (text ++ debugIdOf options enable) := by
      rw [isOut, put, if_pos (Nat.le_refl _)]
    refine ⟨_, text, ⟨text.length, isCount, written, isFold, _, isPut, rfl⟩, isText, ?_⟩
    show filledBuffer _ _ = _
    rw [filledBuffer, List.length_append, debugIdOf, Nat.sub_self, List.replicate_zero,
      List.append_nil]

/-! ### Lengths that differ -/

variable (tables options)

/-- The tables have what a key stands for. -/
structure ValidQuery (query : Query) : Prop where
  path : query.kind ≠ .htmlImport → ∃ path, filePath tables query = some path
  key : ∃ key, uniqueKeyOf tables options query = some key
  inlined : ∃ content, inlineContent tables options query = some content ∧
    (content ≠ none → query.kind = .chunk → ∃ chunk closeTag,
      tables.chunks[query.index]? = some chunk ∧ chunk.closingTagForContent = some closeTag)

def partsLength : Option (Bytes × Bytes) → Nat
  | some parts => parts.1.length + parts.2.length
  | none => 0

/-- The path buffers hold a path, and it as it is written. -/
structure PathFits (path : Bytes) : Prop where
  buffer : path.length ≤ options.pathBuffer
  counted : ∃ parts, prefixedPath options path = some parts
  written : ∃ parts, prefixedPath options (platformToPosixInPlace options.windows path) = some parts

/-- If a key is replaced by a path, then by one that fits. -/
def Fits (query : Query) : Prop :=
  inlineContent tables options query = some none → query.kind ≠ .htmlImport →
    ∀ path, filePath tables query = some path → PathFits options path

/-- By how much a path is longer before its backslashes are replaced, and a manifest with
U+FFFD for what is not valid in it. -/
def excess (query : Query) : Int :=
  if inlineContent tables options query = some none then
    if query.kind = .htmlImport then
      (((tables.manifestWrites query.index).map lossyLength).sum : Int) -
        (tables.manifestWrites query.index).flatten.length
    else
      match filePath tables query with
      | some path => (partsLength (prefixedPath options path) : Int) -
          partsLength (prefixedPath options (platformToPosixInPlace options.windows path))
      | none => 0
  else 0

variable {tables options}

/-- What is counted for a key exceeds what is written for it by its excess. -/
theorem measured_iff {query : Query} (valid : ValidQuery tables options query)
    (isKey : query.kind ≠ .none) :
    (∃ n here, countQuery tables options query = some n ∧ replaced tables options query = some here)
      ↔ Fits tables options query := by
  obtain ⟨content, isContent, tag⟩ := valid.inlined
  unfold countQuery replaced Fits
  simp only [if_neg isKey, isContent, Option.bind_eq_bind, Option.bind_some, Option.pure_def]
  cases content with
  | some content =>
      refine iff_of_true ?_ (by simp)
      by_cases isChunk : query.kind = .chunk
      · obtain ⟨chunk, closeTag, isChunkAt, isTag⟩ := tag (by simp) isChunk
        simp [isChunk, isChunkAt, isTag]
      · simp [isChunk]
  | none =>
      by_cases isHtml : query.kind = .htmlImport
      · simp [isHtml]
      · obtain ⟨path, isPath⟩ := valid.path isHtml
        simp only [isHtml, if_false, isPath, Option.bind_some, Option.some.injEq, forall_eq',
          not_false_eq_true, forall_const, ne_eq]
        constructor
        · rintro ⟨n, here, isCount, isReplaced⟩
          obtain ⟨counted, isCounted, _⟩ := Option.bind_eq_some_iff.mp isCount
          split at isReplaced
          · cases isReplaced
          · next fits =>
            obtain ⟨written, isWritten, _⟩ := Option.bind_eq_some_iff.mp isReplaced
            exact ⟨Nat.le_of_not_lt fits, ⟨counted, isCounted⟩, ⟨written, isWritten⟩⟩
        · rintro ⟨fits, ⟨counted, isCounted⟩, ⟨written, isWritten⟩⟩
          rw [isCounted, isWritten, if_neg (Nat.not_lt.mpr fits)]
          exact ⟨_, _, rfl, rfl⟩

theorem excess_eq {query : Query} {n : Nat} {here : Replaced} (isKey : query.kind ≠ .none)
    (isCount : countQuery tables options query = some n)
    (isReplaced : replaced tables options query = some here) :
    (n : Int) = here.text.length + excess tables options query := by
  unfold countQuery at isCount
  unfold replaced at isReplaced
  unfold excess
  simp only [if_neg isKey, Option.bind_eq_bind, Option.bind_eq_some_iff, Option.pure_def] at *
  obtain ⟨content, isContent, isCount⟩ := isCount
  obtain ⟨content', isContent', isReplaced⟩ := isReplaced
  rw [isContent] at isContent'
  obtain rfl := Option.some.inj isContent'
  cases content with
  | some content =>
      rw [if_neg (by simp [isContent]), Int.add_zero]
      dsimp only at isCount isReplaced
      by_cases isChunk : query.kind = .chunk
      · rw [if_pos isChunk] at isCount isReplaced
        obtain ⟨chunk, isChunkAt, isCount⟩ := Option.bind_eq_some_iff.mp isCount
        obtain ⟨closeTag, isTag, ⟨⟩⟩ := Option.bind_eq_some_iff.mp isCount
        rw [isChunkAt, Option.bind_some, isTag, Option.bind_some] at isReplaced
        obtain rfl := Option.some.inj isReplaced
        exact_mod_cast length_escapeClosingTags content closeTag (closingTag_plain isTag)
      · rw [if_neg isChunk] at isCount isReplaced
        obtain rfl := Option.some.inj isCount
        obtain rfl := Option.some.inj isReplaced
        rfl
  | none =>
      rw [if_pos isContent]
      dsimp only at isCount isReplaced
      by_cases isHtml : query.kind = .htmlImport
      · rw [if_pos isHtml] at isCount isReplaced ⊢
        obtain rfl := Option.some.inj isCount
        obtain rfl := Option.some.inj isReplaced
        dsimp only
        omega
      · rw [if_neg isHtml] at isCount isReplaced ⊢
        obtain ⟨path, isPath, isCount⟩ := Option.bind_eq_some_iff.mp isCount
        obtain ⟨counted, isCounted, ⟨⟩⟩ := Option.bind_eq_some_iff.mp isCount
        rw [isPath, Option.bind_some] at isReplaced
        split at isReplaced
        · cases isReplaced
        · obtain ⟨written, isWritten, ⟨⟩⟩ := Option.bind_eq_some_iff.mp isReplaced
          simp only [isPath, isCounted, isWritten, partsLength, List.length_append]
          omega

theorem replacedText_cons_iff {piece : OutputPiece} {pieces : List OutputPiece} {text : Bytes} :
    replacedText tables options (piece :: pieces) = some text ↔
      ∃ here rest, replacedAt tables options piece = some here ∧
        replacedText tables options pieces = some rest ∧ text = piece.data ++ here.text ++ rest := by
  simp only [replacedText, Option.bind_eq_bind, Option.bind_eq_some_iff, Option.pure_def,
    Option.some.injEq]
  constructor
  · rintro ⟨here, isHere, rest, isRest, rfl⟩
    exact ⟨here, rest, isHere, isRest, rfl⟩
  · rintro ⟨here, rest, isHere, isRest, rfl⟩
    exact ⟨here, isHere, rest, isRest, rfl⟩

theorem countedLength_cons_iff {piece : OutputPiece} {pieces : List OutputPiece} {n : Nat} :
    countedLength tables options (piece :: pieces) = some n ↔
      ∃ here rest, countQuery tables options piece.query = some here ∧
        countedLength tables options pieces = some rest ∧ n = piece.data.length + here + rest := by
  simp only [countedLength, Option.bind_eq_bind, Option.bind_eq_some_iff, Option.pure_def,
    Option.some.injEq]
  constructor
  · rintro ⟨here, isHere, rest, isRest, rfl⟩
    exact ⟨here, rest, isHere, isRest, rfl⟩
  · rintro ⟨here, rest, isHere, isRest, rfl⟩
    exact ⟨here, isHere, rest, isRest, rfl⟩

/-- Both passes go through all pieces when all paths fit. -/
theorem passes_iff {keys : List (Bytes × Query)} (last : Bytes)
    (valid : ∀ key ∈ keys, ValidQuery tables options key.2)
    (isKey : ∀ key ∈ keys, key.2.kind ≠ .none) :
    (∃ text n, replacedText tables options (keyPieces keys last) = some text ∧
      countedLength tables options (keyPieces keys last) = some n) ↔
        ∀ key ∈ keys, Fits tables options key.2 := by
  induction keys with
  | nil => exact iff_of_true ⟨_, _, rfl, rfl⟩ (by simp)
  | cons key keys ih =>
      have head : key.2.kind ≠ .none := isKey key (List.mem_cons_self ..)
      have measured := measured_iff (valid key (List.mem_cons_self ..)) head
      have rest := ih
        (fun other member => valid other (List.mem_cons_of_mem _ member))
        (fun other member => isKey other (List.mem_cons_of_mem _ member))
      have isReplacedAt : replacedAt tables options { data := key.1, query := key.2 } =
          replaced tables options key.2 := if_neg head
      rw [List.forall_mem_cons, ← measured, ← rest]
      show (∃ text n, replacedText tables options (_ :: keyPieces keys last) = some text ∧
        countedLength tables options (_ :: keyPieces keys last) = some n) ↔ _
      simp only [replacedText_cons_iff, countedLength_cons_iff, isReplacedAt]
      constructor
      · rintro ⟨_, _, ⟨here, text, isHere, isText, rfl⟩, n, m, isCount, isRest, rfl⟩
        exact ⟨⟨n, here, isCount, isHere⟩, text, m, isText, isRest⟩
      · rintro ⟨⟨n, here, isCount, isHere⟩, text, m, isText, isRest⟩
        exact ⟨_, _, ⟨here, text, isHere, isText, rfl⟩, n, m, isCount, isRest, rfl⟩

/-- The lengths of the two passes differ by what the keys exceed. -/
theorem lengths_differ {keys : List (Bytes × Query)} {last text : Bytes} {n : Nat}
    (isKey : ∀ key ∈ keys, key.2.kind ≠ .none)
    (isText : replacedText tables options (keyPieces keys last) = some text)
    (isCount : countedLength tables options (keyPieces keys last) = some n) :
    (n : Int) = text.length + (keys.map fun key => excess tables options key.2).sum := by
  induction keys generalizing text n with
  | nil =>
      obtain ⟨here, rest, ⟨⟩, ⟨⟩, rfl⟩ := replacedText_cons_iff.mp isText
      obtain ⟨here, rest, ⟨⟩, ⟨⟩, rfl⟩ := countedLength_cons_iff.mp isCount
      simp
  | cons key keys ih =>
      have head : key.2.kind ≠ .none := isKey key (List.mem_cons_self ..)
      obtain ⟨here, rest, isHere, isRest, rfl⟩ := replacedText_cons_iff.mp isText
      obtain ⟨count, restCount, isHereCount, isRestCount, rfl⟩ := countedLength_cons_iff.mp isCount
      rw [replacedAt, if_neg head] at isHere
      have headLength := excess_eq head isHereCount isHere
      have restLength := ih
        (fun other member => isKey other (List.mem_cons_of_mem _ member)) isRest isRestCount
      rw [List.map_cons, List.sum_cons, List.length_append, List.length_append]
      push_cast
      rw [headLength, restLength]
      omega

theorem KeyedText.isKey {limits : KeyLimits} {uniqueKeyPrefix text last : Bytes}
    {keys : List (Bytes × Query)} (keyed : KeyedText limits uniqueKeyPrefix text keys last) :
    ∀ key ∈ keys, key.2.kind ≠ .none := by
  induction keyed with
  | last => simp
  | key _ isKey _ ih =>
      intro key member
      rcases List.mem_cons.mp member with rfl | inRest
      · obtain ⟨letter, _, _, isLetter, _⟩ := isKey.text
        intro isNone
        rw [isNone] at isLetter
        cases isLetter
      · exact ih key inRest

theorem KeyedText.eq_of_nowhere {limits : KeyLimits} {uniqueKeyPrefix text last : Bytes}
    {keys : List (Bytes × Query)} (keyed : KeyedText limits uniqueKeyPrefix text keys last)
    (nowhere : indexOf uniqueKeyPrefix text = none) : keys = [] ∧ last = text := by
  cases keyed with
  | last => exact ⟨rfl, rfl⟩
  | key first =>
      rw [first] at nowhere
      cases nowhere

end Replace

/-- A text is written with each of its keys replaced, and nothing behind it but the comment, when
all paths fit and the keys together exceed nothing. -/
theorem placeholders_replaced_iff (tables : OutputTables) (options : OutputOptions)
    (limits : KeyLimits) (uniqueKeyPrefix : Bytes) (nodes : List Bytes) (enable : Bool)
    (everyKey : EveryKey limits uniqueKeyPrefix (ValidQuery tables options) nodes.flatten)
    (whole : (∃ i, uniqueKeyPrefix <+: nodes.flatten.drop i) →
      joinerContains nodes uniqueKeyPrefix = true) :
    ∃ keys last, KeyedText limits uniqueKeyPrefix nodes.flatten keys last ∧
      ((∃ result text, codeWithSourceMapShifts tables options enable
          (breakOutputIntoPieces limits uniqueKeyPrefix nodes) = some result ∧
        replacedText tables options (keyPieces keys last) = some text ∧
        result.buffer = text ++ debugIdOf options enable) ↔
        (∀ key ∈ keys, Fits tables options key.2) ∧
          (keys.map fun key => excess tables options key.2).sum = 0) := by
  obtain ⟨keys, last, keyed, valid⟩ := everyKey.keyedText
  refine ⟨keys, last, keyed, ?_⟩
  have isKey := keyed.isKey
  cases contains : joinerContains nodes uniqueKeyPrefix with
  | false =>
      have nowhere : indexOf uniqueKeyPrefix nodes.flatten = none := by
        apply indexOf_eq_none_iff.mpr
        intro i _ occurs
        have isIn := whole ⟨i, occurs⟩
        rw [contains] at isIn
        cases isIn
      obtain ⟨rfl, rfl⟩ := keyed.eq_of_nowhere nowhere
      refine iff_of_true ?_ (by simp)
      rw [breakOutputIntoPieces, contains]
      refine ⟨_, nodes.flatten, rfl, ?_, rfl⟩
      simp [keyPieces, replacedText, replacedAt, Query.none]
  | true =>
      have isPieces : breakOutputIntoPieces limits uniqueKeyPrefix nodes =
          .pieces (keyPieces keys last) := by
        rw [breakOutputIntoPieces, contains, breakLoop_eq keyed (Nat.le_refl _)]
        rfl
      have keyFound : ∀ piece ∈ keyPieces keys last,
          ∃ key, keyAt tables options enable piece = some key := by
        intro piece member
        rcases List.mem_append.mp member with inKeys | isLast
        · obtain ⟨key, isIn, rfl⟩ := List.mem_map.mp inKeys
          obtain ⟨uniqueKey, isUnique⟩ := (valid key isIn).key
          rw [keyAt, if_neg (isKey key isIn), shiftedKey]
          cases enable with
          | true => exact ⟨uniqueKey, isUnique⟩
          | false => exact ⟨[], rfl⟩
        · rw [List.mem_singleton.mp isLast]
          exact ⟨[], rfl⟩
      rw [isPieces, ← passes_iff last valid isKey]
      refine Iff.trans (codeOfPieces_iff keyFound) ?_
      constructor
      · rintro ⟨text, isText, isCount⟩
        have lengths := lengths_differ isKey isText isCount
        exact ⟨⟨text, text.length, isText, isCount⟩, by omega⟩
      · rintro ⟨⟨text, n, isText, isCount⟩, noExcess⟩
        have lengths := lengths_differ isKey isText isCount
        rw [noExcess] at lengths
        have same : n = text.length := by omega
        exact ⟨text, isText, same ▸ isCount⟩

/-! ### A path to the directory above -/

def samplePrefix : Bytes :=
  [0x30, 0x31, 0x32, 0x33, 0x34, 0x35, 0x36, 0x37, 0x38, 0x39, 0x61, 0x62, 0x63, 0x64, 0x65, 0x66]

def sampleKey : Bytes :=
  samplePrefix ++ [0x41, 0x30, 0x30, 0x30, 0x30, 0x30, 0x30, 0x30, 0x30]

/-- `main.js` -/
def sampleChunk : OutputChunk where
  uniqueKey := samplePrefix ++ [0x43, 0x30, 0x30, 0x30, 0x30, 0x30, 0x30, 0x30, 0x30]
  finalRelPath := [0x6D, 0x61, 0x69, 0x6E, 0x2E, 0x6A, 0x73]
  content := .javascript
  isolatedHash := 0

/-- The asset is `..\a`. -/
def sampleTables : OutputTables where
  chunks := [sampleChunk]
  additionalFiles := [[.outputFile 0]]
  uniqueKeyForAdditionalFile := [sampleKey]
  additionalOutputPaths := [[0x2E, 0x2E, 0x5C, 0x61]]
  entryPointChunkIndex := [0]
  urlForCss := []
  manifestWrites _ := []

def sampleOptions (windows : Bool) : OutputOptions where
  importPrefix := []
  chunk := sampleChunk
  forceAbsolutePath := false
  standaloneChunkContents := none
  windows := windows
  topLevelDir := [0x2F]
  pathBuffer := 4096

def sampleLimits : KeyLimits := { files := 1, chunks := 1, htmlImports := 0 }

def sampleNodes : List Bytes := [[0x22] ++ sampleKey]

theorem sample_everyKey (windows : Bool) : EveryKey sampleLimits samplePrefix
    (ValidQuery sampleTables (sampleOptions windows)) sampleNodes.flatten := by
  intro i occurs
  have inside : i < 27 := by
    by_contra outside
    rw [List.drop_eq_nil_of_le (Nat.le_of_not_lt fun below =>
      outside (Nat.lt_trans below (by decide)))] at occurs
    exact absurd occurs (by decide)
  have only : ∀ i < 27, samplePrefix <+: sampleNodes.flatten.drop i → i = 1 := by decide
  rw [only i inside occurs]
  refine ⟨sampleKey, { index := 0, kind := .asset }, ⟨⟨0x41, List.replicate 8 0x30, rfl, rfl, rfl,
    rfl⟩, rfl⟩, ⟨fun _ => ⟨_, rfl⟩, ⟨_, rfl⟩, none, rfl, fun some => absurd rfl some⟩, ?_⟩
  decide

/-- Without Windows the asset is written as `./..\a`, and nothing is exceeded. -/
theorem placeholders_replaced_iff_sample :
    ∃ keys last, KeyedText sampleLimits samplePrefix sampleNodes.flatten keys last ∧
      ((∃ result text, codeWithSourceMapShifts sampleTables (sampleOptions false) false
          (breakOutputIntoPieces sampleLimits samplePrefix sampleNodes) = some result ∧
        replacedText sampleTables (sampleOptions false) (keyPieces keys last) = some text ∧
        result.buffer = text ++ debugIdOf (sampleOptions false) false) ↔
        (∀ key ∈ keys, Fits sampleTables (sampleOptions false) key.2) ∧
          (keys.map fun key => excess sampleTables (sampleOptions false) key.2).sum = 0) :=
  placeholders_replaced_iff sampleTables (sampleOptions false) sampleLimits samplePrefix sampleNodes
    false (sample_everyKey false) fun _ => by decide

/-- On Windows `./` is counted in front of `..\a`, and is not written in front of `../a`. The
output ends in two bytes that are zero. -/
theorem parent_path_not_filled :
    EveryKey sampleLimits samplePrefix (ValidQuery sampleTables (sampleOptions true))
      sampleNodes.flatten ∧
    (codeWithSourceMapShifts sampleTables (sampleOptions true) false
      (breakOutputIntoPieces sampleLimits samplePrefix sampleNodes)).map CodeResult.buffer =
        some [0x22, 0x2E, 0x2E, 0x2F, 0x61, 0, 0] ∧
    replacedText sampleTables (sampleOptions true)
      (keyPieces [([0x22], { index := 0, kind := .asset })] []) =
        some [0x22, 0x2E, 0x2E, 0x2F, 0x61] :=
  ⟨sample_everyKey true, by decide +kernel, by decide +kernel⟩

end Bunx.Bundler
