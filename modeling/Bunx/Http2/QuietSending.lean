/-
Module: Bunx.Http2.QuietSending
Purpose: What is sent, and what the socket takes, concerns neither the decoder nor the requests.
Trusted boundary: none
Main exports: flush_quiet, drainSendBody_quiet, drainSendBodies_quiet, writeRequest_quiet,
  replenishWindow_quiet
-/
import Bunx.Http2.HeaderFrames

namespace Bunx.Http2

open Lib
open Websocket (toBeBytes)

variable {hp : Hpack}

namespace Session

theorem flush_quiet (s : Session hp) : Quiet s s.flush.1 := by
  unfold flush
  split
  · exact .refl s
  · simp only
    split
    · exact { Quiet.refl s with }
    · next total _ =>
      have taken : Quiet s ({ s with
          socket := { s.socket with writes := s.socket.writes.tail }
          writeBuffer := s.writeBuffer.drop total } : Session hp) := { Quiet.refl s with }
      exact taken.trans (record_quiet ⟨rfl, rfl⟩)

/-! ### Bodies -/

theorem writeDataLoop_quiet {endStream : Bool} {cap fuel : Nat} {remaining : Bytes}
    {consumed n : Nat} {s t : Session hp} {stream sent : Stream}
    (writes : writeDataLoop endStream cap fuel remaining consumed s stream = some (t, sent, n)) :
    Quiet s t ∧ sent.part = stream.part ∧ sent.client = stream.client := by
  induction fuel generalizing remaining consumed s stream with
  | zero => cases writes
  | succ fuel ih =>
      rw [writeDataLoop] at writes
      split at writes
      · cases writes
        exact ⟨.refl _, rfl, rfl⟩
      · split at writes
        · cases writes
          exact ⟨.refl _, rfl, rfl⟩
        · split at writes
          · cases writes
            exact ⟨.refl _, rfl, rfl⟩
          · simp only at writes
            obtain ⟨len, -, writes⟩ := Option.bind_eq_some_iff.mp writes
            have framed (flags : UInt8) (chunk : Bytes) :
                Quiet s ({ s.writeFrame .data flags stream.id chunk with
                  connSendWindow := s.connSendWindow - len } : Session hp) :=
              { writeFrame_quiet s .data flags stream.id chunk with }
            split at writes
            · cases writes
              exact ⟨framed _ _, rfl, rfl⟩
            · obtain ⟨quiet, same, sameClient⟩ := ih writes
              exact ⟨(framed _ _).trans quiet, same, sameClient⟩

theorem setBody_part {stream : Stream} {client : Client} (body : HTTPRequestBody)
    (isClient : stream.client = some client) :
    (setBody stream client body).part = stream.part := by
  simp [setBody, Stream.part, isClient]

theorem drainSendBody_quiet {s t : Session hp} {stream sent : Stream} {cap : Nat}
    (drains : s.drainSendBody stream cap = some (t, sent)) :
    Quiet s t ∧ sent.part = stream.part := by
  unfold drainSendBody at drains
  split at drains
  · cases drains
    exact ⟨.refl s, rfl⟩
  · cases isClient : stream.client with
    | none =>
        rw [isClient] at drains
        cases drains
        exact ⟨.refl s, rfl⟩
    | some client =>
        rw [isClient] at drains
        simp only at drains
        split at drains
        · obtain ⟨⟨u, after, n⟩, writes, drains⟩ := Option.bind_eq_some_iff.mp drains
          obtain ⟨quiet, same, -⟩ := writeDataLoop_quiet writes
          simp only at drains
          split at drains
          · cases drains
            exact ⟨quiet, same⟩
          · cases drains
            exact ⟨quiet, same⟩
        · cases drains
          exact ⟨.refl s, rfl⟩
        · split at drains
          · cases drains
            exact ⟨.refl s, rfl⟩
          · obtain ⟨⟨u, after, n⟩, writes, drains⟩ := Option.bind_eq_some_iff.mp drains
            obtain ⟨quiet, same, sameClient⟩ := writeDataLoop_quiet writes
            have kept (body : HTTPRequestBody) :
                (setBody after client body).part = stream.part :=
              (setBody_part body (sameClient.trans isClient)).trans same
            simp only at drains
            cases drains
            refine ⟨quiet, ?_⟩
            split
            · split
              · exact kept _
              · exact kept _
            · split
              · exact kept _
              · exact kept _
        · cases drains

theorem drainTurn_quiet {s t : Session hp} {slice id : Nat} {before after : Bool}
    (kept : s.Kept) (turns : drainTurn slice (s, before) id = some (t, after)) : Quiet s t := by
  unfold drainTurn at turns
  simp only at turns
  cases found : s.streams.get id with
  | none =>
      rw [found] at turns
      cases turns
      exact .refl _
  | some stream =>
      rw [found] at turns
      simp only at turns
      split at turns
      · cases turns
        exact .refl _
      · obtain ⟨⟨u, sent⟩, drains, turns⟩ := Option.bind_eq_some_iff.mp turns
        cases turns
        obtain ⟨quiet, same⟩ := drainSendBody_quiet drains
        have holds : u.Holds stream := quiet.holds (Holds.of_get kept found)
        exact quiet.trans (putStream_quiet (holds.of_part same))

theorem drainPass_quiet {ids : List Nat} {s t : Session hp} {slice : Nat} {before after : Bool}
    (kept : s.Kept) (passes : ids.foldlM (drainTurn slice) (s, before) = some (t, after)) :
    Quiet s t := by
  induction ids generalizing s before with
  | nil =>
      cases passes
      exact .refl _
  | cons id ids ih =>
      rw [List.foldlM_cons] at passes
      obtain ⟨⟨u, progressed⟩, turns, passes⟩ := Option.bind_eq_some_iff.mp passes
      have quiet := drainTurn_quiet kept turns
      exact quiet.trans (ih (quiet.kept kept) passes)

theorem drainSendBodiesLoop_quiet {fuel slice : Nat} {s t : Session hp} (kept : s.Kept)
    (drains : drainSendBodiesLoop slice fuel s = some t) : Quiet s t := by
  induction fuel generalizing s with
  | zero => cases drains
  | succ fuel ih =>
      rw [drainSendBodiesLoop] at drains
      split at drains
      · obtain ⟨⟨u, progressed⟩, passes, drains⟩ := Option.bind_eq_some_iff.mp drains
        have quiet := drainPass_quiet kept passes
        simp only at drains
        split at drains
        · exact quiet.trans (ih (quiet.kept kept) drains)
        · cases drains
          exact quiet
      · cases drains
        exact .refl _

theorem drainSendBodies_quiet {s t : Session hp} (kept : s.Kept)
    (drains : s.drainSendBodies = some t) : Quiet s t :=
  drainSendBodiesLoop_quiet kept drains

/-! ### Requests -/

theorem writePreface_quiet (s : Session hp) : Quiet s s.writePreface := by
  have prefaced : Quiet s ((s.queue CLIENT_PREFACE).record .preface) := by
    have recorded := @record_quiet hp (s.queue CLIENT_PREFACE) .preface ⟨rfl, rfl⟩
    exact { recorded with }
  have framed := (prefaced.trans (writeFrame_quiet _ .settings 0 0 (encodeSetting
    SETTINGS_ENABLE_PUSH 0 ++ encodeSetting SETTINGS_INITIAL_WINDOW_SIZE LOCAL_INITIAL_WINDOW_SIZE
      ++ encodeSetting SETTINGS_MAX_HEADER_LIST_SIZE LOCAL_MAX_HEADER_LIST_SIZE))).trans
    (writeFrame_quiet _ .windowUpdate 0 0
      (toBeBytes 4 (LOCAL_INITIAL_WINDOW_SIZE - DEFAULT_WINDOW_SIZE)))
  exact { framed with }

theorem encodeFields_quiet (fields : List Field) (s : Session hp) (encoded : Bytes) :
    Quiet s (encodeFields fields s encoded).1 := by
  induction fields generalizing s encoded with
  | nil => exact .refl s
  | cons field fields ih =>
      have coded : Quiet s ({ s with encoder :=
          (hp.encode s.encoder field.name field.value field.neverIndex).2 } : Session hp) :=
        { Quiet.refl s with }
      rw [encodeFields]
      split
      · exact coded
      · exact coded.trans (ih _ _)

theorem writeHeaderBlockLoop_quiet {streamId max fuel : Nat} {endStream first : Bool}
    {remaining : Bytes} {s t : Session hp}
    (writes : writeHeaderBlockLoop streamId endStream max fuel remaining first s = some t) :
    Quiet s t := by
  induction fuel generalizing remaining first s with
  | zero => cases writes
  | succ fuel ih =>
      rw [writeHeaderBlockLoop] at writes
      split at writes
      · cases writes
        exact writeFrame_quiet _ _ _ _ _
      · exact (writeFrame_quiet _ _ _ _ _).trans (ih writes)

theorem writeBody_quiet {s t : Session hp} {client : Client} {stream sent : Stream}
    {encoded : Bool} (writes : s.writeBody client stream = some (t, sent, encoded)) :
    Quiet s t ∧ sent.part = stream.part := by
  unfold writeBody at writes
  split at writes
  · split at writes
    · obtain ⟨⟨u, after⟩, drains, writes⟩ := Option.bind_eq_some_iff.mp writes
      cases writes
      obtain ⟨quiet, same⟩ := drainSendBody_quiet drains
      exact ⟨quiet, same⟩
    · cases writes
      exact ⟨.refl _, rfl⟩
  · cases writes
    exact ⟨.refl _, rfl⟩
  · cases writes
    exact ⟨.refl _, rfl⟩

theorem writeRequest_quiet {s t : Session hp} {client : Client} {stream sent : Stream}
    {encoded : Bool} (writes : s.writeRequest client stream = some (t, sent, encoded)) :
    Quiet s t ∧ sent.part = stream.part := by
  have announced : Quiet s s.announceCapacity.1 := by
    unfold announceCapacity
    split
    · exact .refl s
    · exact { Quiet.refl s with }
  unfold writeRequest at writes
  simp only at writes
  have coded := announced.trans
    (encodeFields_quiet (requestFields client) s.announceCapacity.1 s.announceCapacity.2)
  split at writes
  · next u isCoded =>
    rw [isCoded] at coded
    cases writes
    exact ⟨coded, rfl⟩
  · next u block isCoded =>
    rw [isCoded] at coded
    obtain ⟨v, framed, writes⟩ := Option.bind_eq_some_iff.mp writes
    obtain ⟨quiet, same⟩ := writeBody_quiet writes
    refine ⟨(coded.trans (writeHeaderBlockLoop_quiet framed)).trans quiet, same.trans ?_⟩
    split
    · rfl
    · rfl

/-! ### The receive windows -/

theorem foldl_writeWindowUpdate_quiet (updates : List Stream) (s : Session hp) :
    Quiet s (updates.foldl (fun t stream => t.writeWindowUpdate stream.id stream.unackedBytes)
      s) := by
  induction updates generalizing s with
  | nil => exact .refl s
  | cons stream updates ih =>
      exact (writeFrame_quiet s _ _ _ _).trans (ih _)

theorem replenishWindow_quiet (s : Session hp) : Quiet s s.replenishWindow := by
  unfold replenishWindow
  generalize isAfter : (if threshold ≤ s.connUnackedBytes then
    ({ s.writeWindowUpdate 0 s.connUnackedBytes with connUnackedBytes := 0 } : Session hp)
    else s) = after
  have given : Quiet s after := by
    rw [← isAfter]
    split
    · exact { writeFrame_quiet s .windowUpdate 0 0 (toBeBytes 4 s.connUnackedBytes) with }
    · exact .refl s
  have cleared := mapStreams_quiet after (f := fun stream =>
    if wantsUpdate stream then { stream with unackedBytes := 0 } else stream) fun stream => by
      split
      · rfl
      · rfl
  exact given.trans (cleared.trans (foldl_writeWindowUpdate_quiet _ _))

end Session

end Bunx.Http2
