/-
Module: Bunx.Websocket.Arrival
Purpose: A client does with the bytes of whole frames what the receiver of whole frames does, so
  messages arrive whole and in order.
Trusted boundary: `Apart` says that the socket, the tunnel and the entropy do not touch the state
  of zlib.
Main exports: Apart, Serves, AtStage, frame_step, frames_arrive, Idle, messages_arrive
-/
import Bunx.Websocket.ReceiveFrame

namespace Bunx.Websocket

open Lib ChunkLoop

variable {W Z : Type}

/-! ### The world -/

/-- The decompressor is a part of the world that nothing else changes. -/
structure Apart (env : World W) (view : W → Z)
    (inflate : Z → Bytes → Except DecompressError Bytes × Z) : Prop where
  tcpWrite : ∀ w bytes, view (env.tcpWrite w bytes).2 = view w
  tunnelWrite : ∀ w bytes, view (env.tunnelWrite w bytes).2 = view w
  entropySlice : ∀ w, view (env.entropySlice w).2 = view w
  decompress : ∀ w data, (env.decompress w data).1 = (inflate (view w) data).1 ∧
    view (env.decompress w data).2 = (inflate (view w) data).2

/-- The transport is open and no write fails; it may take a part of what it is given. -/
structure Serves (env : World W) : Prop where
  isOpen : ∀ w, env.tcpIsClosed w = false ∧ env.tcpIsShutdown w = false
  tcpWrite : ∀ w bytes, (env.tcpWrite w bytes).1 ≠ none
  tunnelWrite : ∀ w bytes, (env.tunnelWrite w bytes).1 ≠ none

/-! ### Sending a pong -/

section Pong

variable (env : World W) (view : W → Z)

/-- What reading depends on. -/
def standing (ws : WebSocket W) :=
  (ws.outgoingWebsocket, ws.receivingIsFinal, ws.receiveBuffer, ws.headerFragment, ws.deflate,
    ws.messageIsCompressed, ws.events, view ws.world)

/-- Nothing that reading depends on has changed, or the transport has failed. -/
def Stands (ws after : WebSocket W) : Prop :=
  standing view after = standing view ws ∨
    (after.outgoingWebsocket = false ∧ ¬Serves env ∧
      ∃ code, after.events = ws.events ++ [.abruptClose code])

variable {env view} {inflate : Z → Bytes → Except DecompressError Bytes × Z}

theorem Stands.before {ws middle after : WebSocket W} (stands : Stands env view middle after)
    (same : standing view middle = standing view ws) : Stands env view ws after := by
  rcases stands with kept | ⟨gone, fails, code, events⟩
  · exact .inl (kept.trans same)
  · refine .inr ⟨gone, fails, code, events.trans ?_⟩
    have told : middle.events = ws.events := by
      have parts := same
      simp only [standing, Prod.mk.injEq] at parts
      exact parts.2.2.2.2.2.2.1
    rw [told]

/-- The client fails when it is connected. -/
theorem dispatchLast_fails {ws : WebSocket W} (code : ErrorCode)
    (connected : ws.outgoingWebsocket = true) (fails : ¬Serves env) :
    Stands env view ws (dispatchLast (.abruptClose code) ws) := by
  rw [dispatchLast, if_pos connected]
  exact .inr ⟨rfl, fails, code, rfl⟩

theorem terminate_fails {ws : WebSocket W} (code : ErrorCode)
    (connected : ws.outgoingWebsocket = true) (fails : ¬Serves env) :
    Stands env view ws (terminate env code ws) := by
  refine .inr ⟨terminate_closed env ws code, fails, code, ?_⟩
  unfold terminate fail cancel dispatchAbruptClose dispatchLast clearData
  rw [if_pos connected]
  dsimp only
  split <;> rfl

/-- A write changes the world and the bytes written. -/
theorem writeTo_view {write : W → (bytes : Bytes) → Option (Fin (bytes.length + 1)) × W}
    (apart : ∀ w bytes, view (write w bytes).2 = view w) (ws : WebSocket W) (bytes : Bytes) :
    (∃ world, view world = view ws.world ∧ (write ws.world bytes).1 = none ∧
      writeTo write ws bytes = (none, { ws with world := world })) ∨
    ∃ wrote world wire, view world = view ws.world ∧
      writeTo write ws bytes = (some wrote, { ws with world := world, wire := wire }) := by
  have kept := apart ws.world bytes
  unfold writeTo
  rcases written : write ws.world bytes with ⟨_ | wrote, world⟩
  · rw [written] at kept
    exact .inl ⟨world, kept, rfl, rfl⟩
  · rw [written] at kept
    exact .inr ⟨wrote, world, _, kept, rfl⟩

variable (apart : Apart env view inflate)
include apart

theorem sendBufferOut_stands {ws : WebSocket W} (connected : ws.outgoingWebsocket = true) :
    Stands env view ws (sendBufferOut env ws).1 := by
  unfold sendBufferOut
  dsimp only
  split
  · rcases writeTo_view apart.tunnelWrite { ws with sendBuffer := [] } ws.sendBuffer with
      ⟨world, kept, failed, wrote⟩ | ⟨n, world, wire, kept, wrote⟩
    · rw [wrote]
      refine (terminate_fails .failedToWrite ?_ ?_).before ?_
      · exact connected
      · exact fun serves => serves.tunnelWrite _ _ failed
      · unfold standing
        rw [kept]
    · rw [wrote]
      refine .inl ?_
      unfold standing
      rw [kept]
  · split
    · exact .inl rfl
    · rcases writeTo_view apart.tcpWrite { ws with sendBuffer := [] } ws.sendBuffer with
        ⟨world, kept, failed, wrote⟩ | ⟨n, world, wire, kept, wrote⟩
      · rw [wrote]
        refine (terminate_fails .failedToWrite ?_ ?_).before ?_
        · exact connected
        · exact fun serves => serves.tcpWrite _ _ failed
        · unfold standing
          rw [kept]
      · rw [wrote]
        refine .inl ?_
        unfold standing
        rw [kept]

theorem copyToSendBuffer_stands {ws : WebSocket W} (connected : ws.outgoingWebsocket = true)
    (bytes : Bytes) (doWrite : Bool) :
    Stands env view ws (copyToSendBuffer env ws bytes doWrite).1 := by
  rw [copyToSendBuffer_eq]
  split
  · refine (sendBufferOut_stands apart ?_).before rfl
    exact connected
  · exact .inl rfl

theorem enqueueEncodedBytes_stands {ws : WebSocket W} (connected : ws.outgoingWebsocket = true)
    (frame : Bytes) : Stands env view ws (enqueueEncodedBytes env ws frame).1 := by
  let recorded : WebSocket W := { ws with frames := ws.frames ++ [frame] }
  -- What was not taken is queued.
  have queued : ∀ world wire rest, view world = view ws.world →
      Stands env view ws
        (copyToSendBuffer env { recorded with world := world, wire := wire } rest false).1 := by
    intro world wire rest kept
    refine (copyToSendBuffer_stands apart ?_ rest false).before ?_
    · exact connected
    · unfold standing
      rw [kept]
  have whole : ∀ world wire, view world = view ws.world →
      Stands env view ws { recorded with world := world, wire := wire } := by
    intro world wire kept
    refine .inl ?_
    unfold standing
    rw [kept]
  have failing : ∀ world, view world = view ws.world → ¬Serves env →
      Stands env view ws (terminate env .failedToWrite { recorded with world := world }) := by
    intro world kept fails
    refine (terminate_fails .failedToWrite ?_ fails).before ?_
    · exact connected
    · unfold standing
      rw [kept]
  unfold enqueueEncodedBytes
  dsimp only
  split
  · rcases writeTo_view apart.tunnelWrite recorded frame with
      ⟨world, kept, failed, wrote⟩ | ⟨n, world, wire, kept, wrote⟩
    · rw [wrote]
      exact failing world kept fun serves => serves.tunnelWrite _ _ failed
    · rw [wrote]
      dsimp only
      split
      · exact queued world wire _ kept
      · exact whole world wire kept
  · split
    · rcases writeTo_view apart.tcpWrite recorded frame with
        ⟨world, kept, failed, wrote⟩ | ⟨n, world, wire, kept, wrote⟩
      · rw [wrote]
        exact failing world kept fun serves => serves.tcpWrite _ _ failed
      · rw [wrote]
        dsimp only
        split
        · exact whole world wire kept
        · exact queued world wire _ kept
    · refine (copyToSendBuffer_stands apart ?_ frame true).before rfl
      exact connected

theorem sendPong_stands (ws : WebSocket W) (connected : ws.outgoingWebsocket = true) :
    Stands env view ws (sendPong env ws).1 := by
  unfold sendPong
  dsimp only
  split
  · rename_i gone
    refine dispatchLast_fails .ended connected fun serves => ?_
    rw [hasTcp, (serves.isOpen ws.world).1, (serves.isOpen ws.world).2] at gone
    simp at gone
  · split
    · refine (enqueueEncodedBytes_stands apart ?_ _).before ?_
      · exact connected
      · unfold standing
        rw [apart.entropySlice]
    · exact enqueueEncodedBytes_stands apart connected _

end Pong

/-! ### The client and the receiver of whole frames -/

section Simulation

variable (view : W → Z)

/-- The client is where the receiver of whole frames is. -/
structure AtStage (deflate : Bool) (r : Receiver W) (stage : Stage Z) : Prop
    extends BetweenFrames r where
  connected : r.ws.outgoingWebsocket = true
  negotiated : r.ws.deflate = deflate
  events : r.ws.events = stage.events
  zlib : view r.ws.world = stage.zlib
  message : match stage.underWay with
    | none => r.ws.receivingIsFinal = true ∧ r.ws.receiveBuffer = []
    | some u => r.ws.receivingIsFinal = false ∧ r.progress.receivingType = u.kind.opcode ∧
        r.ws.messageIsCompressed = u.compressed ∧ r.ws.receiveBuffer = u.gathered ∧
        (u.compressed = true → deflate = true)

variable {env : World W} {view} {inflate : Z → Bytes → Except DecompressError Bytes × Z}
  {deflate : Bool}

/-- A data message is told as it is to be. -/
theorem dispatchData_told (ws : WebSocket W) {data : Bytes} {kind : DataKind} {event : Event}
    (connected : ws.outgoingWebsocket = true) (told : dataEvent kind data = some event) :
    dispatchData env ws data kind.opcode = tell ws event := by
  have open' : ¬(!ws.outgoingWebsocket) = true := by rw [connected]; decide
  unfold dispatchData
  rw [if_neg open']
  cases kind with
  | binary =>
      cases told
      rfl
  | text =>
      rw [DataKind.opcode]
      dsimp only
      unfold dataEvent at told
      dsimp only at told
      cases converted : toUtf16Alloc data with
      | error =>
          rw [converted] at told
          cases told
      | ok result =>
          rw [converted] at told
          cases result with
          | none =>
              cases told
              rfl
          | some utf16 =>
              cases told
              rfl

/-- A message that is complete in the buffer is handed over. -/
theorem completeFrame_delivers (apart : Apart env view inflate) (ws : WebSocket W)
    {u : UnderWay} {events : List Event} {next : Stage Z}
    (connected : ws.outgoingWebsocket = true) (negotiated : u.compressed = true → ws.deflate = true)
    (compressed : ws.receivingCompressed = u.compressed) (buffer : ws.receiveBuffer = u.gathered)
    (told : ws.events = events)
    (delivered : Stage.deliver inflate events (view ws.world) u = some next) :
    ∃ world flag, view world = next.zlib ∧ next.underWay = none ∧
      completeFrame env ws u.kind.opcode true =
        { ws with
          world := world, receiveBuffer := [], receivePendingChunkLen := 0,
          receivingCompressed := flag, messageIsCompressed := false, events := next.events } := by
  subst told
  unfold completeFrame Stage.deliver at *
  rw [if_pos rfl]
  cases flagged : u.compressed with
  | false =>
      rw [flagged] at delivered compressed
      rw [if_neg Bool.false_ne_true] at delivered
      rw [compressed, if_neg Bool.false_ne_true]
      cases about : dataEvent u.kind u.gathered with
      | none =>
          rw [about] at delivered
          cases delivered
      | some event =>
          rw [about] at delivered
          cases delivered
          refine ⟨ws.world, ws.receivingCompressed, rfl, rfl, ?_⟩
          unfold finishBuffered
          rw [buffer, dispatchData_told { ws with receiveBuffer := [] } connected about]
          rfl
  | true =>
      rw [flagged] at delivered compressed
      rw [if_pos rfl] at delivered
      rw [compressed, if_pos rfl]
      obtain ⟨result, view'⟩ := apart.decompress ws.world u.gathered
      rcases inflating : inflate (view ws.world) u.gathered with ⟨_ | data, zlib⟩
      · rw [inflating] at delivered
        cases delivered
      · rw [inflating] at delivered result view'
        dsimp only at delivered result view'
        cases about : dataEvent u.kind data with
        | none =>
            rw [about] at delivered
            cases delivered
        | some event =>
            rw [about] at delivered
            cases delivered
            have deflates : ¬(!ws.deflate) = true := by rw [negotiated flagged]; decide
            rcases decompressing : env.decompress ws.world u.gathered with ⟨decompressed, world⟩
            rw [decompressing] at result view'
            dsimp only at result view'
            subst result
            refine ⟨world, false, view', rfl, ?_⟩
            unfold finishCompressed dispatchCompressedData
            dsimp only
            rw [if_neg deflates, buffer, decompressing]
            dsimp only
            rw [dispatchData_told { ws with receiveBuffer := [], world := world }
              connected about]
            rfl

/-- A frame of a data message brings the client where it brings the receiver. -/
theorem gather_at (apart : Apart env view inflate) {ws : WebSocket W} {u : UnderWay}
    {stage next : Stage Z} {isFinal : Bool} (payload : Bytes) (quiet : Quiet ws)
    (fragment : ws.headerFragment = none) (connected : ws.outgoingWebsocket = true)
    (negotiated : ws.deflate = deflate) (accepted : u.compressed = true → deflate = true)
    (final : ws.receivingIsFinal = isFinal)
    (compressed : ws.receivingCompressed = u.compressed ∧ ws.messageIsCompressed = u.compressed)
    (buffer : ws.receiveBuffer ++ payload = u.gathered) (told : ws.events = stage.events)
    (zlib : view ws.world = stage.zlib)
    (gathered : Stage.gather inflate stage u isFinal = some next) :
    AtStage view deflate
      { ws := bodyDone env ws u.kind.opcode isFinal payload
        progress := behindFrame u.kind.opcode } next := by
  unfold Stage.gather at gathered
  unfold bodyDone
  dsimp only
  rw [buffer]
  split at gathered
  · cases gathered
  · cases final' : isFinal with
    | false =>
        rw [final', if_neg Bool.false_ne_true] at gathered
        cases gathered
        rw [Bool.and_false, if_neg Bool.false_ne_true, completeFrame, if_neg Bool.false_ne_true]
        exact
          { state := rfl
            quiet := ⟨quiet.1, quiet.2, quiet.3, quiet.4, quiet.5, quiet.6⟩
            fragment := fragment
            connected := connected
            negotiated := negotiated
            events := told
            zlib := zlib
            message := ⟨final.trans final', rfl, compressed.2, rfl, accepted⟩ }
    | true =>
        rw [final', if_pos rfl] at gathered
        obtain ⟨world, flag, sameView, nothing, completed⟩ := completeFrame_delivers apart
          { ws with receiveBuffer := u.gathered } connected
          (fun flagged => negotiated.trans (accepted flagged)) compressed.1 rfl told
          (by rw [zlib]; exact gathered)
        rw [completed]
        have done : ∀ flag' : Bool, AtStage view deflate
            { ws := { ws with
                world := world, receiveBuffer := [], receivePendingChunkLen := 0,
                receivingCompressed := flag', messageIsCompressed := false,
                events := next.events }
              progress := behindFrame u.kind.opcode } next := by
          intro flag'
          exact
            { state := rfl
              quiet := ⟨quiet.1, quiet.2, quiet.3, quiet.4, rfl, quiet.6⟩
              fragment := fragment
              connected := connected
              negotiated := negotiated
              events := rfl
              zlib := sameView
              message := by
                rw [nothing]
                exact ⟨final.trans final', rfl⟩ }
        split
        · exact done false
        · exact done flag

/-- What a whole frame leaves: the client is where the receiver is, or the transport has failed
with the pong of a ping. -/
def Follows (env : World W) (view : W → Z) (deflate : Bool) (r : Receiver W) (next : Stage Z) :
    Prop :=
  r.progress.receiveState = .needHeader ∧
    (AtStage view deflate r next ∨
      (r.ws.outgoingWebsocket = false ∧ ¬Serves env ∧
        ∃ code, r.ws.events = next.events ++ [.abruptClose code]))

theorem control_follows (apart : Apart env view inflate) {r : Receiver W} {stage : Stage Z}
    (here : AtStage view deflate r stage) (c : Control) :
    Follows env view deflate
      { ws := controlDone env r.ws c, progress := behindFrame r.progress.receivingType }
      { stage with events := stage.events ++ [c.event] } := by
  obtain ⟨isPing, payload, small⟩ := c
  have quiet := here.quiet
  have held : (r.ws.pingFrameBytes.write 0 payload).slice payload.length = payload :=
    (Mem.holds_write _ 0 payload).slice_eq rfl
  have open' : ¬(!r.ws.outgoingWebsocket) = true := by rw [here.connected]; decide
  refine ⟨rfl, ?_⟩
  cases isPing with
  | false =>
      left
      have done : controlDone env r.ws ⟨false, payload, small⟩ =
          { r.ws with
            pingLen := payload.length, pingFrameBytes := r.ws.pingFrameBytes.write 0 payload,
            pongReceived := false, events := r.ws.events ++ [.bytes payload .pong] } := by
        unfold controlDone finishPong dispatchData
        dsimp only
        rw [if_neg Bool.false_ne_true, if_neg open', held]
        rfl
      rw [done]
      exact
        { state := rfl
          quiet := ⟨quiet.1, quiet.2, rfl, quiet.4, quiet.5, quiet.6⟩
          fragment := here.fragment
          connected := here.connected
          negotiated := here.negotiated
          events := by rw [here.events]; rfl
          zlib := here.zlib
          message := here.message }
  | true =>
      let told : WebSocket W :=
        { r.ws with
          pingLen := payload.length, pingFrameBytes := r.ws.pingFrameBytes.write 0 payload,
          pingReceived := false, events := r.ws.events ++ [.bytes payload .ping] }
      have done : controlDone env r.ws ⟨true, payload, small⟩ = (sendPong env told).1 := by
        unfold controlDone finishPing dispatchData
        dsimp only
        rw [if_pos rfl, if_neg open', held]
        rfl
      have calm : Quiet told := ⟨quiet.1, rfl, quiet.3, quiet.4, quiet.5, quiet.6⟩
      rw [done]
      rcases sendPong_stands apart told here.connected with
        same | ⟨gone, fails, code, events⟩
      · left
        simp only [standing, Prod.mk.injEq] at same
        obtain ⟨connected, final, buffer, fragment, negotiated, compressed, events, world⟩ := same
        exact
          { state := rfl
            quiet := calm.settles (sendPong_settles env told)
            fragment := fragment.trans here.fragment
            connected := connected.trans here.connected
            negotiated := negotiated.trans here.negotiated
            events := events.trans (by rw [← here.events]; rfl)
            zlib := world.trans here.zlib
            message := by
              rw [final, buffer, compressed]
              exact here.message }
      · right
        refine ⟨gone, fails, code, events.trans ?_⟩
        rw [← here.events]
        rfl

/-- The client follows the receiver, frame by frame. -/
theorem frame_step (apart : Apart env view inflate) {r : Receiver W} {stage next : Stage Z}
    (here : AtStage view deflate r stage) (frame : SentFrame)
    (accepted : Stage.next inflate deflate stage frame = some next) :
    ∃ after, (dataLoop env).handle r frame.encode = some (.left after) ∧
      Follows env view deflate after next := by
  have between : BetweenFrames r := here.toBetweenFrames
  have quiet := here.quiet
  have message := here.message
  have fits : ∀ {stage : Stage Z} {u : UnderWay} {isFinal : Bool} {next : Stage Z},
      Stage.gather inflate stage u isFinal = some next →
        u.gathered.length ≤ maxReceiveMessageLength := by
    intro stage u isFinal next gathered
    unfold Stage.gather at gathered
    split at gathered
    · cases gathered
    · rename_i small
      exact Nat.le_of_not_lt small
  cases frame with
  | control c =>
      cases accepted
      exact ⟨_, control_handled env between c, control_follows apart here c⟩
  | first kind compressed isFinal payload =>
      unfold Stage.next at accepted
      cases underWay : stage.underWay with
      | some u =>
          rw [underWay] at accepted
          cases accepted
      | none =>
          rw [underWay] at accepted message
          obtain ⟨final, buffer⟩ := message
          dsimp only at accepted
          split at accepted
          · cases accepted
          · rename_i notRefused
            have allowed : compressed = true → deflate = true := by
              intro flagged
              rw [flagged] at notRefused
              simpa using notRefused
            have handled := first_handled env between kind compressed isFinal payload final
              (fun flagged => here.negotiated.trans (allowed flagged))
              (by rw [buffer]; simpa using fits accepted)
            refine ⟨_, handled, rfl, .inl ?_⟩
            exact gather_at apart (u := ⟨kind, compressed, payload⟩) payload
              ⟨quiet.1, quiet.2, quiet.3, quiet.4, quiet.5, quiet.6⟩ here.fragment here.connected
              here.negotiated allowed rfl ⟨rfl, rfl⟩ (by rw [buffer]; rfl) here.events here.zlib
              accepted
  | continuation isFinal payload =>
      unfold Stage.next at accepted
      cases underWay : stage.underWay with
      | none =>
          rw [underWay] at accepted
          cases accepted
      | some u =>
          rw [underWay] at accepted message
          obtain ⟨final, kind, compressed, buffer, allowed⟩ := message
          have handled := continuation_handled env between isFinal payload final
            (by rw [buffer]; simpa using fits accepted)
          rw [kind] at handled
          refine ⟨_, handled, rfl, .inl ?_⟩
          exact gather_at apart (u := { u with gathered := u.gathered ++ payload }) payload
            ⟨quiet.1, quiet.2, quiet.3, quiet.4, quiet.5, quiet.6⟩ here.fragment here.connected
            here.negotiated allowed rfl ⟨compressed, compressed⟩ (by rw [buffer]) here.events
            here.zlib accepted

/-- What frames lead to: the client is where the receiver is, or it has been told a part of it
when the transport failed. -/
def Arrives (env : World W) (view : W → Z) (deflate : Bool) (start : List Event)
    (outcome : Outcome (Receiver W) (WebSocket W)) (last : Stage Z) : Prop :=
  (∃ after, outcome = .left after ∧ AtStage view deflate after last) ∨
    ((outcomeWs outcome).outgoingWebsocket = false ∧ ¬Serves env ∧
      ∃ told code, start <+: told ∧ told <+: last.events ∧
        (outcomeWs outcome).events = told ++ [.abruptClose code])

theorem encode_ne_nil (frame : SentFrame) : frame.encode ≠ [] := by
  cases frame with
  | control c =>
      obtain ⟨b0, b1, bytes, _⟩ := encodeFrame_bytes true false c.opcode c.payload
      rw [SentFrame.encode, bytes]
      exact List.cons_ne_nil _ _
  | first kind compressed isFinal payload =>
      obtain ⟨b0, b1, bytes, _⟩ := encodeFrame_bytes isFinal compressed kind.opcode payload
      rw [SentFrame.encode, bytes]
      exact List.cons_ne_nil _ _
  | continuation isFinal payload =>
      obtain ⟨b0, b1, bytes, _⟩ := encodeFrame_bytes isFinal false .continued payload
      rw [SentFrame.encode, bytes]
      exact List.cons_ne_nil _ _

/-- Frames in one chunk. -/
theorem frames_arrive (apart : Apart env view inflate) (frames : List SentFrame)
    {r : Receiver W} {stage last : Stage Z} (here : AtStage view deflate r stage)
    (someFrames : frames ≠ [])
    (accepted : Stage.nextAll inflate deflate stage frames = some last) :
    ∃ outcome, (dataLoop env).handle r (frames.flatMap SentFrame.encode) = some outcome ∧
      Arrives env view deflate stage.events outcome last := by
  induction frames generalizing r stage with
  | nil => exact absurd rfl someFrames
  | cons frame frames ih =>
      rw [Stage.nextAll_cons] at accepted
      obtain ⟨next, first, rest⟩ := Option.bind_eq_some_iff.mp accepted
      obtain ⟨after, handled, state, follows⟩ := frame_step apart here frame first
      have consistent := here.toBetweenFrames.consistent
      have someBytes := encode_ne_nil frame
      have toldFirst := Stage.next_events deflate first
      have toldRest := Stage.nextAll_events deflate frames rest
      rw [List.flatMap_cons]
      cases frames with
      | nil =>
          cases rest
          refine ⟨.left after, ?_, ?_⟩
          · rw [List.flatMap_nil, List.append_nil]
            exact handled
          · rcases follows with there | ⟨gone, fails, code, events⟩
            · exact .inl ⟨after, rfl, there⟩
            · exact .inr ⟨gone, fails, last.events, code, toldFirst, toldRest, events⟩
      | cons second frames =>
          have someMore : (second :: frames).flatMap SentFrame.encode ≠ [] := by
            rw [List.flatMap_cons]
            exact List.append_ne_nil_of_left_ne_nil (encode_ne_nil second) _
          have cut := (lawful env).handle_append consistent.ready someBytes someMore handled (by
            intro other same
            cases same
            intro close
            rw [state] at close
            cases close)
          have follow : ∀ outcome,
              (dataLoop env).handle after ((second :: frames).flatMap SentFrame.encode) =
                some outcome →
              (dataLoop env).handle r
                (frame.encode ++ (second :: frames).flatMap SentFrame.encode) = some outcome := by
            intro outcome more
            rw [cut, ChunkLoop.feed, more]
            rfl
          rcases follows with there | ⟨gone, fails, code, events⟩
          · obtain ⟨outcome, more, arrives⟩ :=
              ih there (List.cons_ne_nil _ _) rest
            refine ⟨outcome, follow outcome more, ?_⟩
            rcases arrives with there | ⟨gone, fails, told, code, started, inside, events⟩
            · exact .inl there
            · exact .inr ⟨gone, fails, told, code, toldFirst.trans started, inside, events⟩
          · obtain ⟨outcome, more, silent⟩ :=
              handle_gone env (consistent_handled consistent someBytes handled) someMore gone
            exact ⟨outcome, follow outcome more, .inr ⟨silent.1, fails, next.events, code,
              toldFirst, toldRest, silent.2.trans events⟩⟩

end Simulation

/-! ### Messages -/

/-- A client between two messages. -/
structure Idle (r : Receiver W) : Prop extends BetweenFrames r where
  connected : r.ws.outgoingWebsocket = true
  final : r.ws.receivingIsFinal = true
  buffer : r.ws.receiveBuffer = []

/-- Messages arrive whole and in order: the C++ WebSocket is told exactly what was sent, unless
the transport fails while a pong is sent. -/
theorem messages_arrive {env : World W} {view : W → Z}
    {inflate : Z → Bytes → Except DecompressError Bytes × Z} (apart : Apart env view inflate)
    {r : Receiver W} (idle : Idle r) (items : List Item) (nonempty : items ≠ [])
    (negotiated : Negotiated r.ws.deflate items)
    (inflated : Inflated inflate (view r.ws.world) items) :
    ∃ after, handleData env r (encodeItems items) = some after ∧
      ((Idle after ∧ after.ws.events = r.ws.events ++ items.flatMap Item.events) ∨
        (after.ws.outgoingWebsocket = false ∧ ¬Serves env ∧
          ∃ told code, told <+: items.flatMap Item.events ∧
            after.ws.events = r.ws.events ++ told ++ [.abruptClose code])) := by
  have here : AtStage view r.ws.deflate r
      { underWay := none, events := r.ws.events, zlib := view r.ws.world } :=
    { toBetweenFrames := idle.toBetweenFrames
      connected := idle.connected
      negotiated := rfl
      events := rfl
      zlib := rfl
      message := ⟨idle.final, idle.buffer⟩ }
  obtain ⟨last, accepted, whole, events⟩ := Stage.nextAll_items r.ws.deflate items
    (show Stage.underWay ⟨none, r.ws.events, view r.ws.world⟩ = none from rfl) negotiated inflated
  have someFrames : items.flatMap Item.frames ≠ [] := by
    obtain ⟨item, rest, rfl⟩ := List.exists_cons_of_ne_nil nonempty
    rw [List.flatMap_cons]
    apply List.append_ne_nil_of_left_ne_nil
    cases item with
    | control c => exact List.cons_ne_nil _ _
    | message m => exact List.cons_ne_nil _ _
  obtain ⟨outcome, handled, arrives⟩ := frames_arrive apart _ here someFrames accepted
  have read : handleData env r (encodeItems items) = match outcome with
      | .left kept => some kept
      | .stopped ws =>
          some { ws := { ws with closeReceived := true }, progress := r.progress } := by
    rw [handleData_consistent here.toBetweenFrames.consistent,
      show (dataLoop env).handle r (encodeItems items) = some outcome from handled]
    cases outcome <;> rfl
  dsimp only at events
  rcases arrives with ⟨after, rfl, there⟩ | ⟨gone, fails, told, code, started, inside, silent⟩
  · refine ⟨after, read, .inl ⟨?_, there.events.trans events⟩⟩
    have between := there.message
    rw [whole] at between
    exact
      { toBetweenFrames := there.toBetweenFrames
        connected := there.connected
        final := between.1
        buffer := between.2 }
  · obtain ⟨more, rfl⟩ := started
    rw [events] at inside
    have part := (List.prefix_append_right_inj _).mp inside
    cases outcome with
    | left after => exact ⟨after, read, .inr ⟨gone, fails, more, code, part, silent⟩⟩
    | stopped ws => exact ⟨_, read, .inr ⟨gone, fails, more, code, part, silent⟩⟩

section Sample

/-- The scripted world with a zlib that knows the text "Hello". -/
def helloWorld : World (List Nat) :=
  { scriptedWorld false with
    decompress := fun limits data =>
      if data = [0xF2, 0x48, 0xCD, 0xC9, 0xC9, 0x07, 0x00] then
        (.ok [0x48, 0x65, 0x6C, 0x6C, 0x6F], limits)
      else (.error .inflateFailed, limits) }

/-- A compressed text in two fragments, with a ping between them, and binary data. -/
def helloItems : List Item :=
  [.message
      { content := .text "Hello"
        compressed := some [0xF2, 0x48, 0xCD, 0xC9, 0xC9, 0x07, 0x00]
        first := [0xF2, 0x48, 0xCD]
        rest := [([⟨true, [7], by decide⟩], [0xC9, 0xC9, 0x07, 0x00])]
        whole := rfl
        small := by decide },
    .message
      { content := .binary [1, 2]
        compressed := none
        first := [1, 2]
        rest := []
        whole := rfl
        small := by decide }]

theorem messages_arrive_hello :
    ∃ after, handleData helloWorld (.start [] true false) (encodeItems helloItems) =
        some after ∧
      after.ws.events =
        [.bytes [7] .ping, .text [0x48, 0x65, 0x6C, 0x6C, 0x6F], .bytes [1, 2] .binary] := by
  have apart : Apart helloWorld (fun _ => ()) fun _ data =>
      ((helloWorld.decompress [] data).1, ()) := by
    refine ⟨fun _ _ => rfl, fun _ _ => rfl, fun _ => rfl, fun _ data => ⟨?_, rfl⟩⟩
    by_cases known : data = [0xF2, 0x48, 0xCD, 0xC9, 0xC9, 0x07, 0x00]
    · simp only [helloWorld, if_pos known]
    · simp only [helloWorld, if_neg known]
  have serves : Serves helloWorld :=
    ⟨fun _ => ⟨rfl, rfl⟩, fun _ _ => Option.some_ne_none _, fun _ _ => Option.some_ne_none _⟩
  have idle : Idle (Receiver.start ([] : List Nat) true false) :=
    { state := rfl
      quiet := ⟨rfl, rfl, rfl, rfl, rfl, rfl⟩
      fragment := rfl
      connected := rfl
      final := rfl
      buffer := rfl }
  obtain ⟨after, read, ⟨_, events⟩ | ⟨_, fails, _⟩⟩ :=
    messages_arrive apart idle helloItems (List.cons_ne_nil _ _) (fun _ _ _ => rfl) ⟨rfl, trivial⟩
  · exact ⟨after, read, events⟩
  · exact absurd serves fails

end Sample

end Bunx.Websocket
