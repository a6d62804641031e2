/-
Module: Bunx.Shell.BraceOutputs
Purpose: How an expansion fills the outputs: the first word goes to the key it was given, the
  others to the keys taken from the counter, in order.
Trusted boundary: none
Main exports: Writes, Writes.text, Writes.andThen, forVariants_writes, Writes.outputs
-/
import Mathlib.Data.List.Forall2
import Bunx.Shell.Braces

namespace Bunx.Shell

/-- A run that is given the last key taken writes these words: the first behind what stands
there, the others behind copies of it in fresh outputs. -/
def Writes (run : Nat → Outputs → Except ParserError Outputs) (words : List Bytes) : Prop :=
  ∀ (written : List Bytes) (before : Bytes) (room : Nat),
    words.length ≤ room + 1 → written.length + room + 1 ≤ 65535 →
      run written.length (written ++ before :: List.replicate room [], written.length + 1) =
        .ok (written ++ words.map (before ++ ·) ++ List.replicate (room + 1 - words.length) [],
          written.length + words.length)

theorem extend_last (written : List Bytes) (before txt : Bytes) (behind : List Bytes)
    (counter : Nat) :
    extend written.length txt (written ++ before :: behind, counter) =
      .ok (written ++ (before ++ txt) :: behind, counter) := by
  unfold extend
  dsimp only
  rw [List.getElem?_append_right (Nat.le_refl _), Nat.sub_self, List.getElem?_cons_zero]
  dsimp only
  rw [List.set_append_right _ _ (Nat.le_refl _), Nat.sub_self, List.set_cons_zero]

/-- Writing nothing more. -/
theorem Writes.stop : Writes (fun _ s => .ok s) [[]] := by
  intro written before room _ _
  simp

/-- A text in front of all words. -/
theorem Writes.text {run : Nat → Outputs → Except ParserError Outputs} {words : List Bytes}
    (writes : Writes run words) (txt : Bytes) :
    Writes
      (fun key s =>
        match extend key txt s with
        | .error e => .error e
        | .ok s => run key s)
      (words.map (txt ++ ·)) := by
  intro written before room fits small
  rw [List.length_map] at fits ⊢
  dsimp only
  rw [extend_last]
  dsimp only
  rw [writes written (before ++ txt) room fits small, List.map_map]
  simp only [Function.comp_def, List.append_assoc]

/-- A run that writes one word, and another one behind it. -/
theorem Writes.andThen {first second : Nat → Outputs → Except ParserError Outputs}
    {word : Bytes} {words : List Bytes} (writesFirst : Writes first [word])
    (writesSecond : Writes second words) :
    Writes
      (fun key s =>
        match first key s with
        | .error e => .error e
        | .ok s => second key s)
      (words.map (word ++ ·)) := by
  intro written before room fits small
  rw [List.length_map] at fits ⊢
  have single := writesFirst written before room (by simp) small
  dsimp only
  rw [single]
  have shape : written ++ [word].map (before ++ ·) ++ List.replicate (room + 1 - [word].length) [] =
      written ++ (before ++ word) :: List.replicate room [] := by simp
  rw [shape]
  dsimp only
  rw [List.length_singleton, writesSecond written (before ++ word) room fits small, List.map_map]
  simp only [Function.comp_def, List.append_assoc]

section

variable {α : Type} {visit : α → Nat → Outputs → Except ParserError Outputs}

/-- The variants behind the first take fresh keys. -/
theorem forVariants_others {variants : List α} {words : List (List Bytes)}
    (writes : List.Forall₂ (fun variant ws => ws ≠ [] ∧ Writes (visit variant) ws) variants words)
    (outKey : Nat) (before : Bytes) (written : List Bytes) (room : Nat)
    (fits : words.flatten.length ≤ room) (small : written.length + room ≤ 65535) :
    forVariants visit outKey before false variants
        (written ++ List.replicate room [], written.length) =
      .ok (written ++ words.flatten.map (before ++ ·) ++
          List.replicate (room - words.flatten.length) [],
        written.length + words.flatten.length) := by
  induction writes generalizing written room with
  | nil => simp [forVariants]
  | @cons variant ws variants words first others ih =>
      obtain ⟨someWord, writesFirst⟩ := first
      rw [List.flatten_cons, List.length_append] at fits
      have onePos : 0 < ws.length := List.length_pos_iff.mpr someWord
      obtain ⟨space, rfl⟩ : ∃ n, room = n + 1 := ⟨room - 1, by omega⟩
      have wrapped : (written.length + 1) % 65536 = written.length + 1 :=
        Nat.mod_eq_of_lt (by omega)
      rw [List.replicate_succ, forVariants]
      dsimp only
      rw [extend_last, List.nil_append]
      dsimp only
      rw [wrapped, writesFirst written before space (by omega) (by omega)]
      dsimp only
      have place : written.length + ws.length =
          (written ++ ws.map (before ++ ·)).length := by
        rw [List.length_append, List.length_map]
      rw [place, ih _ _ (by omega) (by rw [← place]; omega)]
      simp only [List.flatten_cons, List.map_append, List.append_assoc, List.length_append,
        List.length_map, Nat.add_assoc, Nat.sub_sub]

/-- The loop over variants writes the words of all, one variant after another. -/
theorem forVariants_writes {variants : List α} {words : List (List Bytes)}
    (someVariant : variants ≠ [])
    (writes : List.Forall₂ (fun variant ws => ws ≠ [] ∧ Writes (visit variant) ws) variants words) :
    Writes
      (fun key s =>
        match s.1[key]? with
        | none => .error .crash
        | some before => forVariants visit key before true variants s)
      words.flatten := by
  intro written before room fits small
  cases writes with
  | nil => exact absurd rfl someVariant
  | @cons variant ws variants words first others =>
      rw [List.flatten_cons, List.length_append] at fits
      have here : (written ++ before :: List.replicate room [])[written.length]? =
          some before := by
        rw [List.getElem?_append_right (Nat.le_refl _), Nat.sub_self, List.getElem?_cons_zero]
      dsimp only
      rw [here]
      dsimp only
      rw [forVariants, first.2 written before room (by omega) small]
      dsimp only
      have place : written.length + ws.length =
          (written ++ ws.map (before ++ ·)).length := by
        rw [List.length_append, List.length_map]
      rw [place, forVariants_others others _ _ _ _ (by omega) (by rw [← place]; omega)]
      simp only [List.flatten_cons, List.map_append, List.append_assoc, List.length_append,
        List.length_map, Nat.add_assoc, Nat.sub_sub]

end

/-- From empty outputs the words themselves come out. -/
theorem Writes.outputs {run : Nat → Outputs → Except ParserError Outputs} {words : List Bytes}
    (writes : Writes run words) (someWord : words ≠ []) (few : words.length ≤ 65535) :
    (run 0 (List.replicate words.length [], 1)).map Prod.fst = .ok words := by
  have pos : 0 < words.length := List.length_pos_iff.mpr someWord
  have room : List.replicate words.length ([] : Bytes) =
      [] ++ [] :: List.replicate (words.length - 1) [] := by
    rw [List.nil_append, ← List.replicate_succ]
    congr 1
    omega
  rw [room]
  have ran := writes [] [] (words.length - 1) (by omega) (by simp only [List.length_nil]; omega)
  rw [List.length_nil, Nat.zero_add] at ran
  rw [ran, Nat.sub_add_cancel pos, Nat.sub_self]
  simp [Except.map]

end Bunx.Shell
