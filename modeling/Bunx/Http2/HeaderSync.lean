/-
Module: Bunx.Http2.HeaderSync
Purpose: Every complete header block that is received is decoded once and whole, in the order of
  the wire: the tables of the decoder stay in step with the peer's.
Trusted boundary: none
Main exports: HeaderBlocks, feed, InStep, Aside, Quiet, Holds
-/
import Bunx.Http2.Framing
import Bunx.Http2.Connection

namespace Bunx.Http2

open Lib

/-! ### The header blocks of a connection -/

/-- The frames that were dispatched. -/
def receivedFrames (log : List Event) : List Frame :=
  log.filterMap fun event =>
    match event with
    | .received frame => some frame
    | _ => none

/-- The header blocks that frames carry, whatever streams they belong to. -/
structure HeaderBlocks where
  complete : List Bytes := []
  /-- The fragments of a block that goes on with CONTINUATION frames. -/
  unfinished : Option Bytes := none
deriving DecidableEq, Repr

namespace HeaderBlocks

def add (blocks : HeaderBlocks) (block : Bytes) (ends : Bool) : HeaderBlocks :=
  if ends then { complete := blocks.complete ++ [block] }
  else { blocks with unfinished := some block }

/-- Padding and priority are not part of a block. -/
def frame (blocks : HeaderBlocks) (frame : Frame) : HeaderBlocks :=
  match FrameType.ofByte? frame.type_ with
  | some .headers =>
      match headerFragment frame with
      | .error _ => blocks
      | .ok fragment => blocks.add fragment (hasFlag frame.flags END_HEADERS)
  | some .continuation =>
      blocks.add (blocks.unfinished.getD [] ++ frame.payload) (hasFlag frame.flags END_HEADERS)
  | _ => blocks

end HeaderBlocks

def headerBlocks (log : List Event) : HeaderBlocks :=
  (receivedFrames log).foldl HeaderBlocks.frame {}

theorem headerBlocks_received (log : List Event) (frame : Frame) :
    headerBlocks (log ++ [.received frame]) = (headerBlocks log).frame frame := by
  simp [headerBlocks, receivedFrames]

/-- A block goes through the decoder from its first byte to its last. -/
def feed (hp : Hpack) (decoder : hp.Decoder) (block : Bytes) : Option hp.Decoder :=
  let result := discardBlock hp block.length block decoder
  if result.1 then some result.2 else none

/-- Where the fields of a block are kept, the tables change as where they are not. -/
theorem HeaderScan.run_discard {hp : Hpack} {statusCode fuel : Nat} {rest : Bytes}
    {decoder after : hp.Decoder} {scan found : HeaderScan}
    (runs : HeaderScan.run hp statusCode fuel rest decoder scan = (.ok found, after)) :
    discardBlock hp fuel rest decoder = (true, after) := by
  induction fuel generalizing rest decoder scan with
  | zero =>
      cases runs
      rfl
  | succ fuel ih =>
      rw [HeaderScan.run] at runs
      rw [discardBlock]
      split at runs
      · next isEmpty =>
        cases runs
        rw [if_pos isEmpty]
      · next more =>
        rw [if_neg more]
        cases decoded : hp.decode decoder rest with
        | mk header next =>
            rw [decoded] at runs
            cases header with
            | none => cases runs
            | some header =>
                simp only at runs ⊢
                cases isField : scan.field statusCode header with
                | error error =>
                    rw [isField] at runs
                    cases runs
                | ok scan =>
                    rw [isField] at runs
                    exact ih runs

/-! ### Sessions in step -/

/-- What a stream has gathered of its header block, and whose request it is. -/
def Stream.part (stream : Stream) : Nat × Bytes × Option Nat :=
  (stream.id, stream.headerBlock, stream.client.map Client.asyncHttpId)

/-- What a stream has gathered. -/
def Stream.fragments (stream : Stream) : Nat × Bytes := (stream.id, stream.headerBlock)

def parts (streams : OrderedMap Nat Stream) : OrderedMap Nat (Nat × Bytes × Option Nat) :=
  streams.map fun entry => (entry.1, entry.2.part)

theorem get_parts (streams : OrderedMap Nat Stream) (id : Nat) :
    (parts streams).get id = (streams.get id).map Stream.part :=
  OrderedMap.get_mapValues Stream.part

theorem keys_parts (streams : OrderedMap Nat Stream) : (parts streams).keys = streams.keys :=
  OrderedMap.keys_mapValues Stream.part

/-- The requests that were taken and answered. -/
def dealings (log : List Event) : List Event :=
  log.filter fun event =>
    match event with
    | .adopted _ => true
    | .answered _ _ => true
    | _ => false

namespace Session

variable {hp : Hpack}

/-- The fragments of the block that is awaited: those of its stream, or of no stream. -/
def gathered (s : Session hp) : Bytes :=
  match s.streams.get s.expectingContinuation with
  | some stream => stream.headerBlock
  | none => s.orphanHeaderBlock

/-- The streams of a session are found by their own identifiers, which were given out. -/
structure Kept (s : Session hp) : Prop where
  distinct : s.streams.keys.Nodup
  named : ∀ id stream, s.streams.get id = some stream →
    stream.id = id ∧ id ≠ 0 ∧ id < s.nextStreamId
  expecting : s.expectingContinuation < s.nextStreamId

/-- The decoder has seen the blocks that are complete, and the session holds the fragments of the
one that is not. -/
structure Stands (s : Session hp) (blocks : HeaderBlocks) : Prop where
  kept : s.Kept
  decoder : blocks.complete.foldlM (feed hp) hp.initial.1 = some s.decoder
  unfinished : blocks.unfinished =
    if s.expectingContinuation = 0 then none else some s.gathered

/-- The session stands where its log says. -/
def InStep (s : Session hp) : Prop := s.Stands (headerBlocks s.log)

/-- A session that has failed reads no more. -/
def Follows (s : Session hp) : Prop := s.fatalError = none → s.InStep

theorem follows_fail (s : Session hp) (error : Error) : (s.fail error).Follows :=
  fun alive => by cases alive

/-! ### What does not concern the decoder -/

/-- Nothing changes of what the decoder has to do with. -/
structure Aside (s t : Session hp) : Prop where
  fatalError : t.fatalError = none → s.fatalError = none
  decoder : t.decoder = s.decoder
  expecting : t.expectingContinuation = s.expectingContinuation
  next : t.nextStreamId = s.nextStreamId
  orphan : t.orphanHeaderBlock = s.orphanHeaderBlock
  received : receivedFrames t.log = receivedFrames s.log
  keys : t.streams.keys = s.streams.keys
  streams : ∀ id, (t.streams.get id).map Stream.fragments =
    (s.streams.get id).map Stream.fragments

namespace Aside

variable {s t : Session hp}

theorem gathered (aside : Aside s t) : t.gathered = s.gathered := by
  have same := aside.streams s.expectingContinuation
  unfold Session.gathered
  rw [aside.expecting, aside.orphan]
  cases before : s.streams.get s.expectingContinuation with
  | none =>
      rw [before, Option.map_none, Option.map_eq_none_iff] at same
      rw [same]
  | some stream =>
      rw [before, Option.map_some, Option.map_eq_some_iff] at same
      obtain ⟨other, found, samePart⟩ := same
      rw [found]
      exact congrArg Prod.snd samePart

theorem kept (aside : Aside s t) (kept : s.Kept) : t.Kept where
  distinct := by
    rw [aside.keys]
    exact kept.distinct
  named := by
    intro id stream found
    have same := aside.streams id
    rw [found, Option.map_some] at same
    obtain ⟨other, foundOther, samePart⟩ := Option.map_eq_some_iff.mp same.symm
    rw [aside.next]
    obtain ⟨isId, rest⟩ := kept.named id other foundOther
    exact ⟨(congrArg Prod.fst samePart).symm.trans isId, rest⟩
  expecting := by
    rw [aside.expecting, aside.next]
    exact kept.expecting

theorem stands {blocks : HeaderBlocks} (aside : Aside s t) (stands : s.Stands blocks) :
    t.Stands blocks where
  kept := aside.kept stands.kept
  decoder := stands.decoder.trans (congrArg some aside.decoder.symm)
  unfinished := by
    rw [aside.expecting, aside.gathered]
    exact stands.unfinished

theorem inStep (aside : Aside s t) (inStep : s.InStep) : t.InStep := by
  have stands := aside.stands inStep
  rw [headerBlocks, ← aside.received] at stands
  exact stands

theorem follows (aside : Aside s t) (follows : s.Follows) : t.Follows :=
  fun alive => aside.inStep (follows (aside.fatalError alive))

end Aside

/-- Nor does anything change of the requests. -/
structure Quiet (s t : Session hp) : Prop where
  fatalError : t.fatalError = none → s.fatalError = none
  decoder : t.decoder = s.decoder
  expecting : t.expectingContinuation = s.expectingContinuation
  next : t.nextStreamId = s.nextStreamId
  orphan : t.orphanHeaderBlock = s.orphanHeaderBlock
  pending : t.pendingAttach = s.pendingAttach
  received : receivedFrames t.log = receivedFrames s.log
  dealings : dealings t.log = dealings s.log
  parts : parts t.streams = parts s.streams

namespace Quiet

variable {s t u : Session hp}

theorem refl (s : Session hp) : Quiet s s := ⟨id, rfl, rfl, rfl, rfl, rfl, rfl, rfl, rfl⟩

theorem trans (first : Quiet s t) (second : Quiet t u) : Quiet s u where
  fatalError := fun alive => first.fatalError (second.fatalError alive)
  decoder := second.decoder.trans first.decoder
  expecting := second.expecting.trans first.expecting
  next := second.next.trans first.next
  orphan := second.orphan.trans first.orphan
  pending := second.pending.trans first.pending
  received := second.received.trans first.received
  dealings := second.dealings.trans first.dealings
  parts := second.parts.trans first.parts

/-- The session may fail. -/
theorem fail (quiet : Quiet s t) (error : Error) : Quiet s (t.fail error) :=
  { quiet with fatalError := fun alive => by cases alive }

theorem keys (quiet : Quiet s t) : t.streams.keys = s.streams.keys := by
  rw [← keys_parts, quiet.parts, keys_parts]

theorem streams (quiet : Quiet s t) (id : Nat) :
    (t.streams.get id).map Stream.part = (s.streams.get id).map Stream.part := by
  rw [← get_parts, quiet.parts, get_parts]

/-- A stream that is there stays, with its part. -/
theorem get_some {id : Nat} {stream : Stream} (quiet : Quiet s t)
    (found : s.streams.get id = some stream) :
    ∃ after, t.streams.get id = some after ∧ after.part = stream.part := by
  have same := quiet.streams id
  rw [found, Option.map_some] at same
  exact Option.map_eq_some_iff.mp same

theorem aside (quiet : Quiet s t) : Aside s t where
  fatalError := quiet.fatalError
  decoder := quiet.decoder
  expecting := quiet.expecting
  next := quiet.next
  orphan := quiet.orphan
  received := quiet.received
  keys := quiet.keys
  streams := by
    intro id
    have same := congrArg (Option.map fun part => (part.1, part.2.1)) (quiet.streams id)
    rw [Option.map_map, Option.map_map] at same
    exact same

theorem kept (quiet : Quiet s t) (kept : s.Kept) : t.Kept := quiet.aside.kept kept

/-- The stream that a pointer leads to is the one of the session. -/
theorem holds {stream : Stream} (quiet : Quiet s t)
    (holds : (s.streams.get stream.id).map Stream.part = some stream.part) :
    (t.streams.get stream.id).map Stream.part = some stream.part :=
  (quiet.streams stream.id).trans holds

end Quiet

/-- The session has the stream, with the same fragments. -/
def Holds (s : Session hp) (stream : Stream) : Prop :=
  (s.streams.get stream.id).map Stream.part = some stream.part

theorem Holds.of_part {s : Session hp} {stream other : Stream} (holds : s.Holds stream)
    (same : other.part = stream.part) : s.Holds other := by
  have sameId : other.id = stream.id := congrArg Prod.fst same
  rw [Holds, sameId, same]
  exact holds

theorem Holds.of_get {s : Session hp} {id : Nat} {stream : Stream} (kept : s.Kept)
    (found : s.streams.get id = some stream) : s.Holds stream := by
  rw [Holds, (kept.named id stream found).1, found]
  rfl

theorem putStream_quiet {s : Session hp} {stream : Stream} (holds : s.Holds stream) :
    Quiet s (s.putStream stream) :=
  { Quiet.refl s with parts := OrderedMap.mapValues_put holds }

/-- Traffic is recorded. -/
theorem record_quiet {s : Session hp} {event : Event}
    (traffic : receivedFrames [event] = [] ∧ dealings [event] = []) :
    Quiet s (s.record event) :=
  { Quiet.refl s with
    received := by
      show receivedFrames (s.log ++ [event]) = _
      rw [receivedFrames, List.filterMap_append]
      exact (congrArg (_ ++ ·) traffic.1).trans (List.append_nil _)
    dealings := by
      show dealings (s.log ++ [event]) = _
      rw [dealings, List.filter_append]
      exact (congrArg (_ ++ ·) traffic.2).trans (List.append_nil _) }

theorem writeFrame_quiet (s : Session hp) (type : FrameType) (flags : UInt8) (streamId : Nat)
    (payload : Bytes) : Quiet s (s.writeFrame type flags streamId payload) := by
  have recorded := @record_quiet hp s (.queued ⟨type.toByte, flags, streamId, payload⟩) ⟨rfl, rfl⟩
  exact { recorded with }

theorem rstStream_quiet (s : Session hp) (stream : Stream) (code : ErrorCode) :
    Quiet s (s.rstStream stream code).1 ∧
      (s.rstStream stream code).2.part = stream.part := by
  unfold rstStream
  split
  · exact ⟨.refl s, rfl⟩
  · exact ⟨writeFrame_quiet s _ _ _ _, rfl⟩

/-- A reset stream is written back. -/
theorem putReset_quiet {s : Session hp} {stream after : Stream} {code : ErrorCode}
    (holds : s.Holds stream)
    (same : after.part = (s.rstStream stream code).2.part) :
    Quiet s ((s.rstStream stream code).1.putStream after) := by
  obtain ⟨quiet, samePart⟩ := rstStream_quiet s stream code
  have holdsAfter : (s.rstStream stream code).1.Holds stream := quiet.holds holds
  exact quiet.trans (putStream_quiet (holdsAfter.of_part (same.trans samePart)))

/-- All streams change, but not in their parts. -/
theorem mapStreams_quiet (s : Session hp) {f : Stream → Stream}
    (same : ∀ stream, (f stream).part = stream.part) :
    Quiet s { s with streams := s.streams.map fun entry => (entry.1, f entry.2) } :=
  { Quiet.refl s with
    parts := by
      show (s.streams.map fun entry => (entry.1, f entry.2)).map _ = s.streams.map _
      rw [List.map_map]
      exact List.map_congr_left fun entry _ => Prod.ext rfl (same entry.2) }

/-! ### Frames that carry no header block -/

theorem shiftWindows_parts {delta : Int} {streams moved : OrderedMap Nat Stream}
    {tooLarge : Bool} (shifts : shiftWindows delta streams = some (moved, tooLarge)) :
    parts moved = parts streams := by
  induction streams generalizing moved tooLarge with
  | nil =>
      cases shifts
      rfl
  | cons entry streams ih =>
      rw [shiftWindows] at shifts
      simp only at shifts
      split at shifts
      · cases shifts
        rfl
      · obtain ⟨next, -, shifts⟩ := Option.bind_eq_some_iff.mp shifts
        obtain ⟨⟨rest, large⟩, shiftsRest, shifts⟩ := Option.bind_eq_some_iff.mp shifts
        cases shifts
        exact congrArg (_ :: ·) (ih shiftsRest)

theorem applySetting_quiet {s t : Session hp} {unit : Nat × Nat}
    (applies : s.applySetting unit = some t) : Quiet s t := by
  unfold applySetting at applies
  simp only at applies
  split at applies
  · split at applies
    · cases applies
      exact (Quiet.refl s).fail _
    · cases applies
      exact { Quiet.refl s with }
  · split at applies
    · cases applies
      exact { Quiet.refl s with }
    · split at applies
      · cases applies
        exact { Quiet.refl s with }
      · split at applies
        · split at applies
          · cases applies
            exact (Quiet.refl s).fail _
          · obtain ⟨⟨moved, tooLarge⟩, shifts, applies⟩ := Option.bind_eq_some_iff.mp applies
            have moves : Quiet s ({ s with
                remoteInitialWindowSize := unit.2
                streams := moved } : Session hp) :=
              { Quiet.refl s with parts := shiftWindows_parts shifts }
            simp only at applies
            split at applies
            · cases applies
              exact moves.fail _
            · cases applies
              exact moves
        · cases applies
          exact Quiet.refl s

theorem applySettings_quiet {units : List (Nat × Nat)} {s t : Session hp}
    (applies : applySettings units s = some t) : Quiet s t := by
  induction units generalizing s with
  | nil =>
      cases applies
      exact Quiet.refl _
  | cons unit units ih =>
      rw [applySettings] at applies
      obtain ⟨u, appliesOne, applies⟩ := Option.bind_eq_some_iff.mp applies
      have quiet := applySetting_quiet appliesOne
      split at applies
      · cases applies
        exact quiet
      · exact quiet.trans (ih applies)

theorem dispatchSettings_quiet {s t : Session hp} {frame : Frame}
    (goes : s.dispatchSettings frame = some t) : Quiet s t := by
  unfold dispatchSettings at goes
  split at goes
  · cases goes
    exact (Quiet.refl s).fail _
  · split at goes
    · split at goes
      · cases goes
        exact (Quiet.refl s).fail _
      · cases goes
        exact Quiet.refl s
    · split at goes
      · cases goes
        exact (Quiet.refl s).fail _
      · obtain ⟨u, applies, goes⟩ := Option.bind_eq_some_iff.mp goes
        have quiet := applySettings_quiet applies
        split at goes
        · cases goes
          exact quiet
        · split at goes
          · cases goes
            exact quiet.fail _
          · cases goes
            have written := quiet.trans (writeFrame_quiet u .settings ACK 0 [])
            exact { written with }

theorem dispatchWindowUpdate_quiet {s t : Session hp} {frame : Frame} (kept : s.Kept)
    (goes : s.dispatchWindowUpdate frame = some t) : Quiet s t := by
  have failed (error : Error) : Quiet s (s.fail error) := (Quiet.refl s).fail error
  unfold dispatchWindowUpdate at goes
  split at goes
  · cases goes
    exact failed _
  · obtain ⟨inc, -, goes⟩ := Option.bind_eq_some_iff.mp goes
    split at goes
    · split at goes
      · cases goes
        exact failed _
      · simp only at goes
        split at goes
        · cases goes
          exact failed _
        · obtain ⟨next, -, goes⟩ := Option.bind_eq_some_iff.mp goes
          cases goes
          exact { Quiet.refl s with }
    · cases found : s.streams.get (uint31 frame.streamIdentifier) with
      | none =>
          rw [found] at goes
          simp only at goes
          split at goes
          · cases goes
            exact failed _
          · cases goes
            exact Quiet.refl s
      | some stream =>
          rw [found] at goes
          have holds := Holds.of_get kept found
          simp only at goes
          split at goes
          · cases goes
            exact putReset_quiet holds rfl
          · split at goes
            · cases goes
              exact putReset_quiet holds rfl
            · obtain ⟨next, -, goes⟩ := Option.bind_eq_some_iff.mp goes
              cases goes
              have quiet := @putStream_quiet hp s { stream with sendWindow := next }
                (holds.of_part rfl)
              exact { quiet with }

theorem dispatchPing_quiet (s : Session hp) (frame : Frame) :
    Quiet s (s.dispatchPing frame) := by
  unfold dispatchPing
  split
  · exact (Quiet.refl s).fail _
  · split
    · exact (Quiet.refl s).fail _
    · split
      · exact Quiet.refl s
      · split
        · exact (Quiet.refl s).fail _
        · exact writeFrame_quiet s _ _ _ _

theorem dispatchPriority_quiet (s : Session hp) (frame : Frame) :
    Quiet s (s.dispatchPriority frame) := by
  unfold dispatchPriority
  split
  · exact (Quiet.refl s).fail _
  · split
    · exact (Quiet.refl s).fail _
    · exact Quiet.refl s

theorem dispatchRstStream_quiet {s : Session hp} (kept : s.Kept) (frame : Frame) :
    Quiet s (s.dispatchRstStream frame) := by
  unfold dispatchRstStream
  split
  · exact (Quiet.refl s).fail _
  · split
    · exact (Quiet.refl s).fail _
    · cases found : s.streams.get frame.streamIdentifier with
      | none => exact Quiet.refl s
      | some stream => exact putStream_quiet ((Holds.of_get kept found).of_part rfl)

theorem goneAway_part (graceful : Bool) (lastId : Nat) (stream : Stream) :
    (goneAway graceful lastId stream).part = stream.part := by
  unfold goneAway
  split
  · rfl
  · split
    · rfl
    · rfl

theorem dispatchGoaway_quiet (s : Session hp) (frame : Frame) :
    Quiet s (s.dispatchGoaway frame) := by
  unfold dispatchGoaway
  split
  · exact (Quiet.refl s).fail _
  · split
    · exact (Quiet.refl s).fail _
    · have quiet := mapStreams_quiet s (f := goneAway
        (u32FromBytes ((frame.payload.take 8).drop 4) == ErrorCode.noError.value)
        (uint31 (u32FromBytes (frame.payload.take 4)))) (goneAway_part _ _)
      exact { quiet with }

theorem takeData_quiet {s : Session hp} (kept : s.Kept) (frame : Frame) :
    Quiet s (s.takeData frame) := by
  unfold takeData
  cases found : s.streams.get frame.streamIdentifier with
  | none =>
      simp only
      split
      · exact (Quiet.refl s).fail _
      · exact Quiet.refl s
  | some stream =>
      have progressed : Quiet s ({ s with streamProgressed := true } : Session hp) :=
        { Quiet.refl s with }
      have holds : ({ s with streamProgressed := true } : Session hp).Holds stream :=
        progressed.holds (Holds.of_get kept found)
      simp only
      split
      · exact progressed.trans (putReset_quiet holds rfl)
      · split
        · exact progressed.trans (putStream_quiet (holds.of_part rfl))
        · split
          · have counts : ({ s with streamProgressed := true } : Session hp).Holds
                { stream with unackedBytes := saturatingAdd stream.unackedBytes frame.length } :=
              holds.of_part rfl
            exact (progressed.trans (putStream_quiet counts)).fail _
          · split
            · exact progressed.trans (putStream_quiet (holds.of_part rfl))
            · exact progressed.trans (putStream_quiet (holds.of_part rfl))

theorem dispatchData_quiet {s : Session hp} (kept : s.Kept) (frame : Frame) :
    Quiet s (s.dispatchData frame) := by
  have counted : Quiet s ({ s with
      connUnackedBytes := saturatingAdd s.connUnackedBytes frame.length } : Session hp) :=
    { Quiet.refl s with }
  exact counted.trans (takeData_quiet (counted.kept kept) frame)

end Session

end Bunx.Http2
