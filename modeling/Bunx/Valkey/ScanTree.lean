/-
Module: Bunx.Valkey.ScanTree
Purpose: The scan with its stack of counts passes a value as a recursion over the value would.
Trusted boundary: none
Main exports: readerAt, skipMany, skipElement, skipWithin, Follows, skipWithin_follows,
  scan_complete_iff, scan_of_skip
-/
import Bunx.Valkey.ScanResume

namespace Bunx.Valkey

open ReplyScanner

variable {α β : Type}

/-! ### Skipping by recursion -/

/-- A reader at a place, without a hint. -/
def readerAt (b : Bytes) (pos : Nat) : ValkeyReader :=
  { buffer := b, pos := pos, crlfSkip := 0 }

/-- A steady step leaves a reader of the same kind. -/
theorem Steady.readerAt {x : Read α} (steady : Steady x) {b : Bytes} {pos : Nat}
    {result : Except RedisError α} {t : ValkeyReader}
    (run : x.runOn (readerAt b pos) = (result, t)) : t = Valkey.readerAt b t.pos := by
  have buffer := steady.buffer_eq (Valkey.readerAt b pos)
  have fresh := steady.fresh (Valkey.readerAt b pos) rfl
  rw [run] at buffer fresh
  rcases t with ⟨buf, place, skip⟩
  cases buffer
  cases fresh
  rfl

/-- Skip as many values. -/
def skipMany (child : Read Unit) : Nat → Read Unit
  | 0 => return ()
  | n + 1 => do
      child
      skipMany child n

/-- Skip an element and its children. -/
def skipElement (depth : Nat) (child : Read Unit) : Read Unit := do
  match ← scanOne depth with
  | none => return ()
  | some children => skipMany child children

/-- Skip a value that may hold `levels` levels more. -/
def skipWithin : Nat → Read Unit
  | 0 => skipElement maxNestingDepth (throw .nestingDepthExceeded)
  | levels + 1 => skipElement (maxNestingDepth - (levels + 1)) (skipWithin levels)

theorem skipMany_steady {child : Read Unit} (steady : Steady child) (n : Nat) :
    Steady (skipMany child n) := by
  induction n with
  | zero => exact Steady.pure _
  | succ n ih => exact steady.bind fun _ => ih

theorem skipElement_steady (depth : Nat) {child : Read Unit} (steady : Steady child) :
    Steady (skipElement depth child) := by
  apply (scanOne_steady depth).bind
  intro children
  cases children with
  | none => exact Steady.pure _
  | some n => exact skipMany_steady steady n

theorem skipWithin_steady (levels : Nat) : Steady (skipWithin levels) := by
  induction levels with
  | zero => exact skipElement_steady _ (Steady.throw _)
  | succ levels ih => exact skipElement_steady _ ih

/-! ### No children at the deepest level -/

/-- A step that, when it succeeds, gives no children. -/
def Childless (x : Read (Option Nat)) : Prop := ∀ r n, (x.runOn r).1 ≠ .ok (some n)

theorem Childless.bind {x : Read α} {f : α → Read (Option Nat)}
    (second : ∀ a, Childless (f a)) : Childless (x >>= f) := by
  intro r n
  rcases step : x.runOn r with ⟨e | a, t⟩
  · rw [Read.runOn_bind_error step]
    intro gives
    cases gives
  · rw [Read.runOn_bind_ok step]
    exact second a t n

theorem Childless.pure_none : Childless (Pure.pure none) := by
  intro r n gives
  cases gives

theorem Childless.throw (e : RedisError) : Childless (MonadExcept.throw e) := by
  intro r n gives
  cases gives

/-- The header of an aggregate is refused at the deepest level. -/
theorem Childless.deep {depth : Nat} (deep : ¬ depth < maxNestingDepth)
    (f : Int → Read (Option Nat)) : Childless (readAggregateLen depth >>= f) := by
  intro r n gives
  unfold readAggregateLen at gives
  rw [if_pos (Nat.le_of_not_lt deep)] at gives
  cases gives

/-- Only below the deepest level an element has children. -/
theorem scanOne_shallow {depth : Nat} {r : ValkeyReader} {n : Nat}
    (aggregate : ((scanOne depth).runOn r).1 = .ok (some n)) : depth < maxNestingDepth := by
  by_contra deep
  have childless : Childless (scanOne depth) := by
    apply Childless.bind
    intro typeByte
    cases RESPType.fromByte typeByte with
    | none => exact Childless.throw _
    | some ty =>
        cases ty
        case simpleString | error | integer | null | double | boolean | bigNumber =>
          exact Childless.bind fun _ => Childless.pure_none
        case bulkString | blobError | verbatimString =>
          apply Childless.bind
          intro len
          dsimp only
          split
          · split
            · exact Childless.pure_none
            · exact Childless.throw _
          · split
            · exact Childless.bind fun _ => Childless.bind fun _ => Childless.pure_none
            · exact Childless.bind fun _ => Childless.pure_none
        all_goals exact Childless.deep deep _
  exact childless r n aggregate

/-! ### The loop follows the recursion -/

/-- The scan once an element ended at `pos` and left this stack. -/
def resumeAt (b : Bytes) (pos : Nat) (stack : List Nat) :
    Except RedisError ScanResult × ReplyScanner :=
  if stack = [] then (.ok .complete, { pos := pos, stack := stack, crlfSkip := 0 })
  else scan { pos := pos, stack := stack, crlfSkip := 0 } b

/-- The answer of a scan that was to pass what `skipped` skips, above `stack`. -/
def Follows (b : Bytes) (stack : List Nat) (skipped : Except RedisError Unit × ValkeyReader)
    (answer : Except RedisError ScanResult × ReplyScanner) : Prop :=
  match skipped with
  | (.ok _, r) => Lib.Alike progress answer (resumeAt b r.pos (unwind stack))
  | (.error e, _) =>
      answer.1 = if e = .invalidResponse then .ok .needMoreData else .error e

theorem Follows.congr {b : Bytes} {stack : List Nat}
    {skipped : Except RedisError Unit × ValkeyReader}
    {answer answer' : Except RedisError ScanResult × ReplyScanner}
    (alike : Lib.Alike progress answer answer') (follows : Follows b stack skipped answer') :
    Follows b stack skipped answer := by
  rcases skipped with ⟨e | _, r⟩
  · exact alike.1.trans follows
  · exact alike.trans follows

/-- When each child is followed, so are all of them. -/
theorem skipMany_follows {b : Bytes} {stack : List Nat} {child : Read Unit} (steady : Steady child)
    (followsChild : ∀ n pos, pos ≤ b.length →
      Follows b ((n + 1) :: stack) (child.runOn (readerAt b pos))
        (scan { pos := pos, stack := (n + 1) :: stack, crlfSkip := 0 } b))
    (n : Nat) {pos : Nat} (inside : pos ≤ b.length) :
    Follows b stack ((skipMany child (n + 1)).runOn (readerAt b pos))
      (scan { pos := pos, stack := (n + 1) :: stack, crlfSkip := 0 } b) := by
  induction n generalizing pos with
  | zero =>
      have follows := followsChild 0 pos inside
      unfold skipMany
      rcases step : child.runOn (readerAt b pos) with ⟨e | _, t⟩ <;> rw [step] at follows
      · rw [Read.runOn_bind_error step]
        exact follows
      · rw [Read.runOn_bind_ok step]
        exact follows
  | succ n ih =>
      have follows := followsChild (n + 1) pos inside
      rw [skipMany]
      rcases step : child.runOn (readerAt b pos) with ⟨e | _, t⟩ <;> rw [step] at follows
      · rw [Read.runOn_bind_error step]
        exact follows
      · have insideAfter : t.pos ≤ b.length := by
          have moved := steady.inside (readerAt b pos) _ (by rw [step]) inside
          rw [step] at moved
          exact moved
        rw [Read.runOn_bind_ok step, steady.readerAt step]
        exact (ih insideAfter).congr follows

/-- An element is followed when its children are. -/
theorem skipElement_follows {b : Bytes} {stack : List Nat} {child : Read Unit} {pos : Nat}
    (inside : pos ≤ b.length)
    (followsChildren : stack.length < maxNestingDepth → ∀ n place, place ≤ b.length →
      Follows b stack ((skipMany child (n + 1)).runOn (readerAt b place))
        (scan { pos := place, stack := (n + 1) :: stack, crlfSkip := 0 } b)) :
    Follows b stack ((skipElement stack.length child).runOn (readerAt b pos))
      (scan { pos := pos, stack := stack, crlfSkip := 0 } b) := by
  have turn := scan_eq (SoundScan.fresh inside stack)
  rw [scanTurn_eq] at turn
  have steady := scanOne_steady stack.length
  have same : elementOf b { pos := pos, stack := stack, crlfSkip := 0 } =
      (scanOne stack.length).runOn (readerAt b pos) := rfl
  rw [same] at turn
  unfold skipElement
  rcases step : (scanOne stack.length).runOn (readerAt b pos) with ⟨e | children, t⟩ <;>
    rw [step] at turn
  · rw [Read.runOn_bind_error step]
    cases e <;> exact turn.1
  · have insideAfter : t.pos ≤ b.length := by
      have moved := steady.inside (readerAt b pos) _ (by rw [step]) inside
      rw [step] at moved
      exact moved
    rw [Read.runOn_bind_ok step, steady.readerAt step]
    rcases children with _ | _ | n
    -- An element without children ends: the stack unwinds.
    iterate 2
      · show Lib.Alike progress _ (resumeAt b t.pos (unwind stack))
        unfold resumeAt
        dsimp only [turnOf] at turn
        by_cases last : unwind stack = []
        · rw [if_pos last] at turn ⊢
          exact turn
        · rw [if_neg last] at turn ⊢
          exact turn
    · have shallow : stack.length < maxNestingDepth := scanOne_shallow (by rw [step])
      exact (followsChildren shallow n t.pos insideAfter).congr turn

/-- The scan follows the recursion at every depth. -/
theorem skipWithin_follows (b : Bytes) (levels : Nat) {stack : List Nat}
    (depth : stack.length + levels = maxNestingDepth) {pos : Nat} (inside : pos ≤ b.length) :
    Follows b stack ((skipWithin levels).runOn (readerAt b pos))
      (scan { pos := pos, stack := stack, crlfSkip := 0 } b) := by
  induction levels generalizing stack pos with
  | zero =>
      have deepest : maxNestingDepth = stack.length := depth.symm
      rw [skipWithin, deepest]
      apply skipElement_follows inside
      intro shallow
      exact absurd deepest (Nat.ne_of_gt shallow)
  | succ levels ih =>
      have here : maxNestingDepth - (levels + 1) = stack.length := by omega
      rw [skipWithin, here]
      apply skipElement_follows inside
      intro _ n place insidePlace
      apply skipMany_follows (skipWithin_steady levels) _ n insidePlace
      intro m place' insidePlace'
      apply ih _ insidePlace'
      rw [List.length_cons]
      omega

/-! ### A whole reply -/

/-- Skip a whole reply. -/
def skipValue : Read Unit := skipWithin maxNestingDepth

/-- A new scan is complete exactly where the recursion ends. -/
theorem scan_complete_iff (b : Bytes) (pos : Nat) :
    (scan {} b).1 = .ok .complete ∧ (scan {} b).2.pos = pos ↔
      skipValue.runOn (.init b) = (.ok (), readerAt b pos) := by
  have follows : Follows b [] (skipValue.runOn (.init b)) (scan {} b) :=
    skipWithin_follows b maxNestingDepth (Nat.zero_add _) (Nat.zero_le _)
  rcases step : skipValue.runOn (.init b) with ⟨e | done, t⟩ <;> rw [step] at follows
  · have stops : (scan {} b).1 = if e = .invalidResponse then .ok .needMoreData else .error e :=
      follows
    constructor
    · rintro ⟨complete, _⟩
      rw [complete] at stops
      split at stops <;> cases stops
    · intro equal
      cases equal
  · obtain ⟨complete, place⟩ := follows
    have endsAt : (scan {} b).2.pos = t.pos := congrArg Prod.fst place
    have reader : t = readerAt b t.pos := (skipWithin_steady maxNestingDepth).readerAt step
    constructor
    · rintro ⟨_, rfl⟩
      rw [endsAt, ← reader]
    · intro equal
      have samePlace : t = readerAt b pos := congrArg Prod.snd equal
      constructor
      · exact complete
      · rw [endsAt, samePlace]
        rfl

end Bunx.Valkey
