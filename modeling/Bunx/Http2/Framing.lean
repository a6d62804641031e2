/-
Module: Bunx.Http2.Framing
Purpose: The same frames are dispatched wherever the bytes from the socket are cut.
Trusted boundary: none
Main exports: parseFrames_append, readChunks, readChunks_flatten
-/
import Bunx.Http2.Dispatch

namespace Bunx.Http2

namespace Session

variable {hp : Hpack}

/-- More turns than there are bytes change nothing. -/
theorem parseFramesLoop_enough {fuel more : Nat} {s : Session hp} {bytes : Bytes}
    (enough : bytes.length < fuel) (enoughMore : bytes.length < more) :
    parseFramesLoop fuel s bytes = parseFramesLoop more s bytes := by
  induction fuel generalizing more s bytes with
  | zero => omega
  | succ fuel ih =>
      cases more with
      | zero => omega
      | succ more =>
          rw [parseFramesLoop, parseFramesLoop]
          cases isNext : nextFrame bytes with
          | incomplete => rfl
          | tooLarge => rfl
          | frame frame rest =>
              have shorter := (nextFrame_rest isNext).1
              have nine : FRAME_HEADER_BYTE_SIZE = 9 := rfl
              simp only
              cases (s.record (.received frame)).dispatchFrame frame with
              | none => rfl
              | some t =>
                  simp only [Option.bind_eq_bind, Option.bind_some]
                  rw [@ih more t rest (by omega) (by omega)]

section

variable {s : Session hp} {bytes rest : Bytes} {frame : Frame}

/-- One turn of the loop. -/
theorem parseFrames_of_frame (next : nextFrame bytes = .frame frame rest) :
    s.parseFrames bytes =
      ((s.record (.received frame)).dispatchFrame frame).bind fun t =>
        if t.fatalError.isSome then some (t, rest) else t.parseFrames rest := by
  have shorter := (nextFrame_rest next).1
  have nine : FRAME_HEADER_BYTE_SIZE = 9 := rfl
  rw [parseFrames, parseFramesLoop, next]
  simp only
  cases (s.record (.received frame)).dispatchFrame frame with
  | none => rfl
  | some t =>
      simp only [Option.bind_eq_bind, Option.bind_some]
      rw [parseFrames, parseFramesLoop_enough (by omega) (Nat.lt_succ_self rest.length)]

theorem parseFrames_of_incomplete (next : nextFrame bytes = .incomplete) :
    s.parseFrames bytes = some (s, bytes) := by
  rw [parseFrames, parseFramesLoop, next]

theorem parseFrames_of_tooLarge (next : nextFrame bytes = .tooLarge) :
    s.parseFrames bytes = some (s.fail .HTTP2FrameSizeError, bytes) := by
  rw [parseFrames, parseFramesLoop, next]

end

/-- What follows some bytes is read from where these have led. -/
theorem parseFrames_append {s : Session hp} (alive : s.fatalError = none) (bytes more : Bytes) :
    s.parseFrames (bytes ++ more) = (s.parseFrames bytes).bind fun read =>
      if read.1.fatalError.isSome then some (read.1, read.2 ++ more)
      else read.1.parseFrames (read.2 ++ more) := by
  induction bytes using splitFrames.induct generalizing s with
  | case1 bytes frame rest next ih =>
      rw [parseFrames_of_frame next, parseFrames_of_frame (nextFrame_append next more)]
      cases (s.record (.received frame)).dispatchFrame frame with
      | none => rfl
      | some t =>
          simp only [Option.bind_some]
          cases isFailed : t.fatalError with
          | some error => simp [isFailed]
          | none =>
              simp only [Option.isSome_none, Bool.false_eq_true, if_false]
              exact ih isFailed
  | case2 bytes next =>
      rw [parseFrames_of_incomplete next, Option.bind_some, alive]
      rfl
  | case3 bytes next =>
      rw [parseFrames_of_tooLarge next, parseFrames_of_tooLarge (nextFrame_append_tooLarge next more)]
      rfl

/-- The bytes of the socket are read as they come, and what is left of them is kept. -/
def readChunks : List Bytes → Session hp → Bytes → Option (Session hp × Bytes)
  | [], s, kept => some (s, kept)
  | chunk :: chunks, s, kept =>
      (s.parseFrames (kept ++ chunk)).bind fun read =>
        if read.1.fatalError.isSome then some read else readChunks chunks read.1 read.2

/-- What is left holds no complete frame. -/
theorem parseFrames_rest {s t : Session hp} {bytes rest : Bytes}
    (read : s.parseFrames bytes = some (t, rest)) (alive : t.fatalError = none) :
    t.parseFrames rest = some (t, rest) := by
  induction bytes using splitFrames.induct generalizing s with
  | case1 bytes frame tail next ih =>
      rw [parseFrames_of_frame next] at read
      obtain ⟨u, -, read⟩ := Option.bind_eq_some_iff.mp read
      cases isFailed : u.fatalError with
      | some error =>
          simp only [isFailed, Option.isSome_some, if_true, Option.some.injEq,
            Prod.mk.injEq] at read
          rw [read.1, alive] at isFailed
          cases isFailed
      | none =>
          simp only [isFailed, Option.isSome_none, Bool.false_eq_true, if_false] at read
          exact ih read
  | case2 bytes next =>
      rw [parseFrames_of_incomplete next] at read
      cases read
      exact parseFrames_of_incomplete next
  | case3 bytes next =>
      rw [parseFrames_of_tooLarge next] at read
      cases read
      cases alive

theorem readChunks_kept {chunks : List Bytes} {s : Session hp} {kept : Bytes}
    (alive : s.fatalError = none) (isKept : s.parseFrames kept = some (s, kept)) :
    (readChunks chunks s kept).map Prod.fst =
      (s.parseFrames (kept ++ chunks.flatten)).map Prod.fst := by
  induction chunks generalizing s kept with
  | nil => rw [List.flatten_nil, List.append_nil, isKept, readChunks]
  | cons chunk chunks ih =>
      rw [List.flatten_cons, ← List.append_assoc, parseFrames_append alive, readChunks]
      cases isRead : s.parseFrames (kept ++ chunk) with
      | none => rfl
      | some read =>
          obtain ⟨t, rest⟩ := read
          simp only [Option.bind_some]
          cases isFailed : t.fatalError with
          | some error => rfl
          | none =>
              simp only [Option.isSome_none, Bool.false_eq_true, if_false]
              exact ih isFailed (parseFrames_rest isRead isFailed)

/-- However the bytes are cut, they lead to the same session, with the same frames dispatched and
the same frames queued, in the same order. -/
theorem readChunks_flatten {s : Session hp} (alive : s.fatalError = none) (chunks : List Bytes) :
    (readChunks chunks s []).map Prod.fst = (s.parseFrames chunks.flatten).map Prod.fst :=
  readChunks_kept alive (parseFrames_of_incomplete rfl)

end Session

/-- A coder that takes every byte for a field of its own and has no tables. -/
def plainHpack : Hpack where
  Decoder := Nat
  Encoder := Nat
  initial := (0, 0)
  wrapperDecode := fun count src => (⟨1, src.take 1, []⟩, count + 1)
  wrapperEncode := fun count name _ _ => (name, count + 1)
  setEncoderMaxCapacity := fun count _ => count

namespace Session

/-- SETTINGS that come in two parts. -/
theorem readChunks_flatten_settings :
    (readChunks [[0, 0, 0, 4], [0, 0, 0, 0, 0]] (create plainHpack {}) []).map Prod.fst =
      ((create plainHpack {}).parseFrames [0, 0, 0, 4, 0, 0, 0, 0, 0]).map Prod.fst :=
  readChunks_flatten rfl [[0, 0, 0, 4], [0, 0, 0, 0, 0]]

end Session

end Bunx.Http2
