/-
Module: Bunx.Websocket.ReceiveFrame
Purpose: A chunk that is one whole frame, behind a whole frame: what a data frame, a ping and a
  pong leave. And a client that has lost its C++ WebSocket never tells it anything again.
Trusted boundary: none
Main exports: handle_gone, encodeFrame_bytes, bodyState, parse_data, parse_control, bodyDone,
  first_handled, continuation_handled, control_handled
-/
import Bunx.Websocket.Segmentation
import Bunx.Websocket.Messages

namespace Bunx.Websocket

open Lib ChunkLoop

variable {W : Type}

section Gone

variable (env : World W)

/-! ### A C++ WebSocket that is gone -/

theorem finishCompressed_gone (ws : WebSocket W) (kind : Opcode)
    (gone : ws.outgoingWebsocket = false) : Silent ws (finishCompressed env ws kind) :=
  (dispatchCompressedData_settles env { ws with receiveBuffer := [] } _ kind).gone gone

theorem finishBuffered_gone (ws : WebSocket W) (kind : Opcode)
    (gone : ws.outgoingWebsocket = false) : Silent ws (finishBuffered env ws kind) :=
  (dispatchData_settles env { ws with receiveBuffer := [] } _ kind).gone gone

theorem terminate_gone {ws : WebSocket W} (code : ErrorCode)
    (gone : ws.outgoingWebsocket = false) : Silent ws (terminate env code ws) :=
  (terminate_settles env ws code).gone gone

theorem consume_gone {ws : WebSocket W} (data : Bytes) (leftInFragment : Nat) (kind : Opcode)
    (isFinal : Bool) (gone : ws.outgoingWebsocket = false) :
    Silent ws (consume env ws data leftInFragment kind isFinal).1 := by
  let taken : WebSocket W :=
    { ws with receiveBuffer := ws.receiveBuffer ++ data, receivePendingChunkLen := 0 }
  unfold consume
  dsimp only
  split
  · split
    · split
      · exact finishCompressed_gone env taken kind gone
      · exact ⟨gone, rfl⟩
    · exact ⟨gone, rfl⟩
  · split
    · exact (dispatchData_settles env ws data kind).gone gone
    · split
      · exact finishBuffered_gone env _ kind gone
      · split
        · exact ⟨gone, rfl⟩
        · split
          · split
            · exact finishBuffered_gone env taken kind gone
            · exact ⟨gone, rfl⟩
          · exact ⟨gone, rfl⟩

/-- The turn does not tell the C++ WebSocket, which is gone, anything. -/
def SilentTurn (ws : WebSocket W) : Turn (Working W) (WebSocket W) UInt8 → Prop
  | .goOn next _ => Silent ws next.1
  | .leave next => Silent ws next.1
  | .stop after => Silent ws after
  | .panic => True

theorem trackCompression_gone {ws : WebSocket W} (frame : FrameStart)
    (gone : ws.outgoingWebsocket = false) : Silent ws (trackCompression ws frame) := by
  unfold trackCompression
  split_ifs <;> exact ⟨gone, rfl⟩

theorem beginFrame_gone (ws : WebSocket W) (frame : FrameStart) (last : Opcode) (rest : Bytes)
    (gone : ws.outgoingWebsocket = false) :
    SilentTurn ws ((beginFrame env ws frame last).turn rest) := by
  have tracked := trackCompression_gone frame gone
  unfold beginFrame
  split
  · exact terminate_gone env _ gone
  · split
    · exact terminate_gone env _ gone
    · split
      · exact terminate_gone env _ gone
      · dsimp only
        split
        · have consumed := tracked.trans (consume_gone env [] 0 last frame.isFinal tracked.1)
          rw [Finish.turn]
          split
          · exact consumed
          · exact consumed
        · exact tracked

theorem readHeader_gone (ws : WebSocket W) (l : Locals) (b0 b1 : UInt8) (rest : Bytes)
    (gone : ws.outgoingWebsocket = false) :
    SilentTurn ws ((readHeader env ws l b0 b1).turn rest) := by
  let begun : WebSocket W :=
    { ws with receivingIsFinal := (parseWebsocketHeader b0 b1).isFinal }
  unfold readHeader
  dsimp only
  split
  · split
    · exact terminate_gone env _ gone
    · exact beginFrame_gone env begun _ _ rest gone
  · split
    · split
      · exact terminate_gone env _ gone
      · exact beginFrame_gone env begun _ _ rest gone
    · split
      · exact terminate_gone env _ gone
      · exact beginFrame_gone env _ _ _ rest gone

theorem extendedPayloadLength_gone {ws : WebSocket W} (byteSize : Nat) (l : Locals)
    (data : Bytes) (gone : ws.outgoingWebsocket = false) :
    SilentTurn ws (extendedPayloadLength env byteSize ws l data) := by
  unfold extendedPayloadLength
  dsimp only
  split
  · exact ⟨gone, rfl⟩
  · split
    · exact ⟨gone, rfl⟩
    · split
      · exact (terminate_settles env { ws with payloadLengthFrameBytes := [] } _).gone gone
      · exact ⟨gone, rfl⟩

theorem receiveControl_gone {ws noted : WebSocket W} {finish : WebSocket W → WebSocket W}
    (received : Bool) (l : Locals) (data : Bytes) (gone : ws.outgoingWebsocket = false)
    (goneNoted : Silent ws noted)
    (finishes : ∀ ws, ws.outgoingWebsocket = false → Silent ws (finish ws)) :
    SilentTurn ws (receiveControl env received noted finish ws l data) := by
  have collected : ∀ (middle : WebSocket W) remain, Silent ws middle →
      Silent ws (collect middle remain data).1 := by
    intro middle remain silent
    unfold collect
    split
    · exact silent
    · exact silent
  have started :
      Silent ws (if received then (ws, l.receiveBodyRemain) else (noted, 0)).1 := by
    split
    · exact ⟨gone, rfl⟩
    · exact goneNoted
  unfold receiveControl
  split
  · exact terminate_gone env _ gone
  · revert started
    generalize (if received then (ws, l.receiveBodyRemain) else (noted, 0)) = start
    intro started
    have gathered := collected _ start.2 started
    have finished := gathered.trans (finishes _ gathered.1)
    dsimp only
    split
    · exact gathered
    · split
      · exact finished
      · exact finished

theorem needBody_gone {ws : WebSocket W} (l : Locals) (data : Bytes)
    (gone : ws.outgoingWebsocket = false) : SilentTurn ws (needBody env ws l data) := by
  unfold needBody
  split
  · exact terminate_gone env _ gone
  · have consumed := consume_gone env (data.take (min l.receiveBodyRemain data.length))
      l.receiveBodyRemain l.lastReceiveDataType l.isFinal gone
    dsimp only
    split
    · exact consumed
    · exact consumed

theorem finishClose_gone {ws : WebSocket W} (gone : ws.outgoingWebsocket = false) :
    Silent ws (finishClose env ws) := by
  unfold finishClose
  dsimp only
  split
  · exact (sendCloseWithBody_settles env { ws with closeReceived := true } _ _ _).gone gone
  · exact (sendCloseWithBody_settles env { ws with closeReceived := true } _ _ _).gone gone

theorem receiveClose_gone {ws : WebSocket W} (l : Locals) (data : Bytes)
    (gone : ws.outgoingWebsocket = false) : SilentTurn ws (receiveClose env ws l data) := by
  have started : Silent ws (if ws.closeFrameBuffering then (ws, l.receiveBodyRemain) else
      ({ ws with pingLen := l.receiveBodyRemain, closeFrameBuffering := true }, 0)).1 := by
    split
    · exact ⟨gone, rfl⟩
    · exact ⟨gone, rfl⟩
  unfold receiveClose
  split
  · exact terminate_gone env _ gone
  · split
    · revert started
      generalize (if ws.closeFrameBuffering then (ws, l.receiveBodyRemain) else
        ({ ws with pingLen := l.receiveBodyRemain, closeFrameBuffering := true }, 0)) = start
      intro started
      dsimp only
      split
      · exact started
      · have written : Silent ws (writePart start.1 start.2
            (data.take (min data.length (start.1.pingLen - start.2)))) := started
        exact written.trans (finishClose_gone env written.1)
    · exact (sendCloseWithBody_settles env { ws with closeReceived := true } _ _ _).gone gone

theorem finishPing_gone {ws : WebSocket W} (gone : ws.outgoingWebsocket = false) :
    Silent ws (finishPing env ws) := by
  have told := (dispatchData_settles env ws (ws.pingFrameBytes.slice ws.pingLen) .ping).gone gone
  exact told.trans ((sendPong_settles env { dispatchData env ws
    (ws.pingFrameBytes.slice ws.pingLen) .ping with pingReceived := false }).gone told.1)

theorem finishPong_gone {ws : WebSocket W} (gone : ws.outgoingWebsocket = false) :
    Silent ws (finishPong env ws) :=
  (dispatchData_settles env ws (ws.pingFrameBytes.slice ws.pingLen) .pong).gone gone

theorem turn_gone {s : Working W} (data : Bytes) (gone : s.1.outgoingWebsocket = false) :
    SilentTurn s.1 (turn env s data) := by
  obtain ⟨ws, l⟩ := s
  unfold turn
  split
  · unfold needHeader
    split
    · trivial
    · exact ⟨gone, rfl⟩
    · exact readHeader_gone env { ws with headerFragment := none } l _ _ _ gone
    · exact readHeader_gone env { ws with headerFragment := none } l _ _ _ gone
  · exact terminate_gone env _ gone
  · exact extendedPayloadLength_gone env 8 l data gone
  · exact extendedPayloadLength_gone env 2 l data gone
  · exact receiveControl_gone env _ l data gone ⟨gone, rfl⟩ fun _ => finishPing_gone env
  · exact receiveControl_gone env _ l data gone ⟨gone, rfl⟩ fun _ => finishPong_gone env
  · exact needBody_gone env l data gone
  · exact receiveClose_gone env l data gone
  · exact terminate_gone env _ gone

/-- Whatever comes, a C++ WebSocket that is gone is told nothing. -/
theorem handle_gone {r : Receiver W} {data : Bytes} (consistent : Consistent r.load)
    (nonempty : data ≠ []) (gone : r.ws.outgoingWebsocket = false) :
    ∃ outcome, (dataLoop env).handle r data = some outcome ∧
      Silent r.ws (outcomeWs outcome) := by
  obtain ⟨outcome, handled⟩ := (lawful env).handle_some consistent.ready nonempty
  refine ⟨outcome, handled, ?_⟩
  have start : Silent r.ws r.load.1 := ⟨gone, rfl⟩
  have kept := run_keeps (dataLoop env) (fun s => Silent r.ws s.1) (fun ws => Silent r.ws ws) ?_
    start handled
  · rcases kept with ⟨t, silent, rfl⟩ | ⟨result, silent, rfl⟩
    · exact silent
    · exact silent
  · intro s chunk silent
    have quiet := turn_gone env chunk silent.1
    refine ⟨fun t rest step => ?_, fun t step => ?_, fun result step => ?_⟩
    · rw [show turn env s chunk = .goOn t rest from step] at quiet
      exact silent.trans quiet
    · rw [show turn env s chunk = .leave t from step] at quiet
      exact silent.trans quiet
    · rw [show turn env s chunk = .stop result from step] at quiet
      exact silent.trans quiet

end Gone

/-! ### Headers -/

/-- The header of a frame that is not masked. -/
abbrev plainHeader (n : Nat) (opcode : Opcode) (compressed isFinal : Bool) : WebsocketHeader :=
  { len := packLength n, mask := false, opcode := opcode, rsv := 0, compressed := compressed,
    isFinal := isFinal }

/-- The bytes behind the header. -/
abbrev frameBody (payload : Bytes) : Bytes :=
  toBeBytes (lengthByteCount payload.length) payload.length ++ payload

theorem encodeFrame_bytes (isFinal compressed : Bool) (opcode : Opcode) (payload : Bytes) :
    ∃ b0 b1, encodeFrame isFinal compressed opcode none payload =
        b0 :: b1 :: frameBody payload ∧
      WebsocketHeader.fromSlice b0 b1 =
        plainHeader payload.length opcode compressed isFinal := by
  obtain ⟨b0, b1, bytes, header⟩ := WebsocketHeader.fromSlice_slice
    (plainHeader payload.length opcode compressed isFinal)
  refine ⟨b0, b1, ?_, header⟩
  unfold encodeFrame
  dsimp only [Option.isSome]
  rw [bytes, List.append_assoc]
  rfl

/-- The state in which the payload of a data frame is read. -/
def bodyState (n : Nat) : ReceiveState :=
  if n ≤ 125 then .needBody
  else if n ≤ 0xFFFF then .extendedPayloadLength16
  else .extendedPayloadLength64

theorem packLength_val (n : Nat) :
    (packLength n).val = if n ≤ 125 then n else if n ≤ 0xFFFF then 126 else 127 := by
  unfold packLength
  split_ifs <;> rfl

/-- The opcodes of data frames. -/
def isData (opcode : Opcode) : Prop :=
  opcode = .text ∨ opcode = .binary ∨ opcode = .continued

theorem parse_data {b0 b1 : UInt8} {n : Nat} {opcode : Opcode} {compressed isFinal : Bool}
    (header : WebsocketHeader.fromSlice b0 b1 = plainHeader n opcode compressed isFinal)
    (data : isData opcode) (first : opcode = .continued → compressed = false) :
    parseWebsocketHeader b0 b1 =
      { receiveState := bodyState n
        receivingType := opcode
        payloadLength := (packLength n).val
        isFragmented := opcode = .continued || !isFinal
        isFinal := isFinal
        needCompression := compressed } := by
  have state : (if (packLength n).val ≤ 125 then ReceiveState.needBody
      else if (packLength n).val = 126 then .extendedPayloadLength16
      else if (packLength n).val = 127 then .extendedPayloadLength64
      else .fail) = bodyState n := by
    rw [packLength_val]
    unfold bodyState
    split_ifs <;> first | rfl | omega
  unfold parseWebsocketHeader
  rw [header]
  dsimp only
  rcases data with rfl | rfl | rfl
  · simp [state]
  · simp [state]
  · have plain := first rfl
    subst plain
    simp [state]

theorem parse_control {b0 b1 : UInt8} {n : Nat} {isPing : Bool}
    (header : WebsocketHeader.fromSlice b0 b1 =
      plainHeader n (if isPing then .ping else .pong) false true) (small : n ≤ 125) :
    parseWebsocketHeader b0 b1 =
      { receiveState := if isPing then .ping else .pong
        receivingType := if isPing then .ping else .pong
        payloadLength := n
        isFragmented := false
        isFinal := true
        needCompression := false } := by
  have length : (packLength n).val = n := (packLength_val n).trans (if_pos small)
  unfold parseWebsocketHeader
  rw [header]
  dsimp only
  cases isPing with
  | true => simp [length]
  | false => simp [length]

/-! ### Data frames -/

section Frames

variable (env : World W)

/-- What is stored behind a frame. -/
abbrev behindFrame (last : Opcode) : Progress :=
  { receiveState := .needHeader, receivingType := last, receiveBodyRemain := 0 }

/-- A payload that is read to its end. -/
theorem run_payload {ws : WebSocket W} {l : Locals} (payload : Bytes) (turns : Nat)
    (quiet : Quiet ws) (here : l.receiveState = .needBody)
    (length : l.receiveBodyRemain = payload.length)
    (fits : ws.receiveBuffer.length + payload.length ≤ maxReceiveMessageLength) :
    (dataLoop env).run (turns + 1) (ws, l) payload =
      some (.left
        { ws := completeFrame env { ws with receiveBuffer := ws.receiveBuffer ++ payload }
            l.lastReceiveDataType l.isFinal
          progress := behindFrame l.lastReceiveDataType }) := by
  have taken : turn env (ws, l) payload = needBody env ws l payload := by rw [turn, here]
  have small : ¬maxReceiveMessageLength < ws.receiveBuffer.length + l.receiveBodyRemain := by
    omega
  have whole : ¬payload.length < l.receiveBodyRemain := by omega
  rw [needBody_eq env l payload quiet.pending, if_neg small, if_neg whole, length,
    List.drop_length, List.take_length] at taken
  rw [ChunkLoop.run, show (dataLoop env).turn (ws, l) payload = _ from taken]
  rfl

/-- An extended length, and the payload. -/
theorem run_extended {ws : WebSocket W} {l : Locals} {byteSize : Nat} (payload : Bytes)
    (turns : Nat) (quiet : Quiet ws)
    (taken : turn env (ws, l) (toBeBytes byteSize payload.length ++ payload) =
      extendedPayloadLength env byteSize ws l (toBeBytes byteSize payload.length ++ payload))
    (positive : 0 < byteSize) (long : 0 < payload.length)
    (inside : payload.length < 256 ^ byteSize)
    (fits : ws.receiveBuffer.length + payload.length ≤ maxReceiveMessageLength) :
    (dataLoop env).run (turns + 2) (ws, l) (toBeBytes byteSize payload.length ++ payload) =
      some (.left
        { ws := completeFrame env { ws with receiveBuffer := ws.receiveBuffer ++ payload }
            l.lastReceiveDataType l.isFinal
          progress := behindFrame l.lastReceiveDataType }) := by
  have nothing : ws.payloadLengthFrameBytes = [] := quiet.payloadLength
  have cleared : { ws with payloadLengthFrameBytes := [] } = ws := by rw [← nothing]
  have size : (toBeBytes byteSize payload.length).length = byteSize := toBeBytes_length _ _
  have whole : ¬ws.payloadLengthFrameBytes.length +
      (toBeBytes byteSize payload.length ++ payload).length < byteSize := by
    rw [List.length_append, size]
    omega
  have read : fromBeBytes (toBeBytes byteSize payload.length) = payload.length :=
    fromBeBytes_toBeBytes inside
  have notZero : ¬payload.length = 0 := by omega
  rw [extendedPayloadLength_eq env l _ (by rw [nothing]; exact positive), if_neg whole,
    nothing, List.length_nil, Nat.sub_zero] at taken
  dsimp only at taken
  rw [List.take_left' size, List.drop_left' size, List.nil_append, read, if_neg notZero,
    cleared] at taken
  rw [ChunkLoop.run, show (dataLoop env).turn (ws, l) _ = _ from taken]
  exact run_payload env payload turns quiet rfl rfl fits

/-- All that is behind the header of a data frame. -/
theorem run_body {ws : WebSocket W} {l : Locals} (payload : Bytes) (turns : Nat)
    (quiet : Quiet ws) (here : l.receiveState = bodyState payload.length)
    (length : l.receiveBodyRemain = (packLength payload.length).val)
    (fits : ws.receiveBuffer.length + payload.length ≤ maxReceiveMessageLength) :
    (dataLoop env).run (turns + 2) (ws, l) (frameBody payload) =
      some (.left
        { ws := completeFrame env { ws with receiveBuffer := ws.receiveBuffer ++ payload }
            l.lastReceiveDataType l.isFinal
          progress := behindFrame l.lastReceiveDataType }) := by
  have bound : maxReceiveMessageLength < 2 ^ 64 := by decide
  unfold bodyState at here
  rw [packLength_val] at length
  unfold frameBody lengthByteCount
  by_cases short : payload.length ≤ 125
  · rw [if_pos short] at here length ⊢
    exact run_payload env payload (turns + 1) quiet here length fits
  · rw [if_neg short] at here ⊢
    by_cases middle : payload.length ≤ 0xFFFF
    · rw [if_pos middle] at here ⊢
      exact run_extended env payload turns quiet (by rw [turn, here]) (by decide) (by omega)
        (by omega) fits
    · rw [if_neg middle] at here ⊢
      exact run_extended env payload turns quiet (by rw [turn, here]) (by decide) (by omega)
        (by omega) fits

/-- What a data frame makes of a client whose header is checked. -/
def bodyDone (ws : WebSocket W) (kind : Opcode) (isFinal : Bool) (payload : Bytes) :
    WebSocket W :=
  let done :=
    completeFrame env { ws with receiveBuffer := ws.receiveBuffer ++ payload } kind isFinal
  if payload.isEmpty && isFinal then
    { done with receivingCompressed := false, messageIsCompressed := false }
  else done

/-- A data frame whose header has been checked. -/
theorem beginFrame_leaves (ws : WebSocket W) (frame : FrameStart) (last : Opcode)
    (payload : Bytes) (turns : Nat) (quiet : Quiet ws)
    (state : frame.receiveState = bodyState payload.length)
    (length : frame.payloadLength = (packLength payload.length).val)
    (data : isData frame.receivingType)
    (accepted : frame.needCompression = true → ws.deflate = true)
    (fits : ws.receiveBuffer.length + payload.length ≤ maxReceiveMessageLength) :
    (match (beginFrame env ws frame last).turn (frameBody payload) with
      | .goOn next rest => (dataLoop env).run (turns + 2) next rest
      | .leave next => some (.left (Receiver.save next))
      | .stop result => some (.stopped result)
      | .panic => none) =
      some (.left
        { ws := bodyDone env (trackCompression ws frame) last frame.isFinal payload
          progress := behindFrame last }) := by
  have supported : ¬(!isSupported frame.receivingType) = true := by
    rcases data with kind | kind | kind <;> rw [kind] <;> decide
  have notControl : ¬(frame.needCompression && frame.receivingType.isControl) = true := by
    rcases data with kind | kind | kind <;> rw [kind, Bool.and_eq_true] <;>
      exact fun both => absurd both.2 (by decide)
  have negotiated : ¬(frame.needCompression && !ws.deflate) = true := by
    intro refused
    rw [Bool.and_eq_true, Bool.not_eq_true'] at refused
    rw [accepted refused.1] at refused
    exact Bool.noConfusion refused.2
  have tracked := trackCompression_quiet frame quiet
  have buffer : (trackCompression ws frame).receiveBuffer = ws.receiveBuffer := by
    unfold trackCompression
    split_ifs <;> rfl
  unfold beginFrame bodyDone
  rw [if_neg supported, if_neg negotiated, if_neg notControl]
  dsimp only
  by_cases empty : payload = []
  · subst empty
    rw [state, length]
    cases final : frame.isFinal with
    | true =>
        have consumed := (consume_complete env [] last true tracked.pending).1
        rw [if_pos (by decide), Finish.turn, if_pos (by decide)]
        rw [if_pos (by decide), ← consumed]
        rfl
    | false =>
        rw [if_neg (by decide)]
        have ran := run_body env (l := ⟨bodyState 0, frame.receivingType, (packLength 0).val,
          false, frame.isFragmented, last⟩) [] turns tracked rfl rfl (by
            rw [buffer]
            exact fits)
        exact ran
  · have notZero : ¬(decide (frame.payloadLength = 0) &&
        decide (frame.receiveState = .needBody) && frame.isFinal) = true := by
      have positive := List.length_pos_of_ne_nil empty
      rw [length, packLength_val, Bool.and_eq_true, Bool.and_eq_true, decide_eq_true_eq]
      intro both
      have zero := both.1.1
      split_ifs at zero
      omega
    have someBytes : payload.isEmpty = false := by
      cases payload with
      | nil => exact absurd rfl empty
      | cons b rest => rfl
    rw [if_neg notZero, someBytes, Bool.false_and, if_neg Bool.false_ne_true]
    refine run_body env payload turns tracked state length ?_
    rw [buffer]
    exact fits

/-- A client behind a whole frame. -/
structure BetweenFrames (r : Receiver W) : Prop where
  state : r.progress.receiveState = .needHeader
  quiet : Quiet r.ws
  fragment : r.ws.headerFragment = none

theorem BetweenFrames.consistent {r : Receiver W} (between : BetweenFrames r) :
    Consistent r.load := by
  have state : r.load.2.receiveState = .needHeader := between.state
  unfold Consistent
  rw [state]
  exact between.quiet

/-- The header is read, and two turns at least are left. -/
theorem handle_header {r : Receiver W} (between : BetweenFrames r) (b0 b1 : UInt8)
    (body : Bytes) : ∃ turns, (dataLoop env).handle r (b0 :: b1 :: body) =
      match (readHeader env r.ws r.load.2 b0 b1).turn body with
      | .goOn next rest => (dataLoop env).run (turns + 2) next rest
      | .leave next => some (.left (Receiver.save next))
      | .stop result => some (.stopped result)
      | .panic => none := by
  have nothing := between.fragment
  have cleared : { r.ws with headerFragment := none } = r.ws := by rw [← nothing]
  have header : turn env r.load (b0 :: b1 :: body) =
      (readHeader env r.ws r.load.2 b0 b1).turn body := by
    have state : r.load.2.receiveState = .needHeader := between.state
    have read := needHeader_two env r.load.2 nothing b0 b1 body
    rw [cleared] at read
    rw [turn, state]
    exact read
  refine ⟨3 * body.length + 6, ?_⟩
  have fuel : (dataLoop env).turns (b0 :: b1 :: body) = 3 * body.length + 6 + 2 + 1 := by
    change 3 * (b0 :: b1 :: body).length + 3 = _
    rw [List.length_cons, List.length_cons]
    omega
  rw [handle, fuel, ChunkLoop.run,
    show (dataLoop env).turn ((dataLoop env).load r) _ = _ from header]
  cases (readHeader env r.ws r.load.2 b0 b1).turn body <;> rfl

/-- The first frame of a message. -/
theorem first_handled {r : Receiver W} (between : BetweenFrames r) (kind : DataKind)
    (compressed isFinal : Bool) (payload : Bytes) (idle : r.ws.receivingIsFinal = true)
    (accepted : compressed = true → r.ws.deflate = true)
    (fits : r.ws.receiveBuffer.length + payload.length ≤ maxReceiveMessageLength) :
    (dataLoop env).handle r (SentFrame.first kind compressed isFinal payload).encode =
      some (.left
        { ws := bodyDone env
            { r.ws with
              receivingIsFinal := isFinal
              messageIsCompressed := compressed
              receivingCompressed := compressed }
            kind.opcode isFinal payload
          progress := behindFrame kind.opcode }) := by
  have data : isData kind.opcode := by
    cases kind with
    | text => exact .inl rfl
    | binary => exact .inr (.inl rfl)
  have notContinued : kind.opcode ≠ .continued := by cases kind <;> decide
  have message : (kind.opcode = .text || kind.opcode = .binary) = true := by
    cases kind <;> decide
  obtain ⟨b0, b1, bytes, header⟩ := encodeFrame_bytes isFinal compressed kind.opcode payload
  have parsed := parse_data header data fun continued => absurd continued notContinued
  obtain ⟨turns, handled⟩ := handle_header env between b0 b1 (frameBody payload)
  have begun := beginFrame_leaves env { r.ws with receivingIsFinal := isFinal }
    (parseWebsocketHeader b0 b1) kind.opcode payload turns
    ⟨between.quiet.1, between.quiet.2, between.quiet.3, between.quiet.4, between.quiet.5,
      between.quiet.6⟩
    (by rw [parsed]) (by rw [parsed]) (by rw [parsed]; exact data)
    (by rw [parsed]; exact accepted) fits
  have read : readHeader env r.ws r.load.2 b0 b1 =
      beginFrame env { r.ws with receivingIsFinal := isFinal } (parseWebsocketHeader b0 b1)
        kind.opcode := by
    unfold readHeader
    rw [parsed]
    dsimp only
    rw [if_neg notContinued, if_pos message, idle, if_neg (by decide)]
  have tracked : trackCompression { r.ws with receivingIsFinal := isFinal }
      (parseWebsocketHeader b0 b1) =
        { r.ws with
          receivingIsFinal := isFinal
          messageIsCompressed := compressed
          receivingCompressed := compressed } := by
    unfold trackCompression
    rw [parsed]
    exact if_pos message
  rw [SentFrame.encode, bytes, handled, read, begun, tracked, parsed]

/-- A later frame of a message. -/
theorem continuation_handled {r : Receiver W} (between : BetweenFrames r) (isFinal : Bool)
    (payload : Bytes) (underWay : r.ws.receivingIsFinal = false)
    (fits : r.ws.receiveBuffer.length + payload.length ≤ maxReceiveMessageLength) :
    (dataLoop env).handle r (SentFrame.continuation isFinal payload).encode =
      some (.left
        { ws := bodyDone env
            { r.ws with
              receivingIsFinal := isFinal
              receivingCompressed := r.ws.messageIsCompressed }
            r.progress.receivingType isFinal payload
          progress := behindFrame r.progress.receivingType }) := by
  obtain ⟨b0, b1, bytes, header⟩ := encodeFrame_bytes isFinal false .continued payload
  have parsed := parse_data header (.inr (.inr rfl)) fun _ => rfl
  obtain ⟨turns, handled⟩ := handle_header env between b0 b1 (frameBody payload)
  have begun := beginFrame_leaves env { r.ws with receivingIsFinal := isFinal }
    (parseWebsocketHeader b0 b1) r.progress.receivingType payload turns
    ⟨between.quiet.1, between.quiet.2, between.quiet.3, between.quiet.4, between.quiet.5,
      between.quiet.6⟩
    (by rw [parsed]) (by rw [parsed]) (by rw [parsed]; exact .inr (.inr rfl))
    (by rw [parsed]; exact fun compressed => by cases compressed) fits
  have read : readHeader env r.ws r.load.2 b0 b1 =
      beginFrame env { r.ws with receivingIsFinal := isFinal } (parseWebsocketHeader b0 b1)
        r.progress.receivingType := by
    unfold readHeader
    rw [parsed]
    dsimp only
    rw [if_pos rfl, underWay, if_neg (by decide)]
    rfl
  have tracked : trackCompression { r.ws with receivingIsFinal := isFinal }
      (parseWebsocketHeader b0 b1) =
        { r.ws with
          receivingIsFinal := isFinal
          receivingCompressed := r.ws.messageIsCompressed } := by
    unfold trackCompression
    rw [parsed]
    rfl
  rw [SentFrame.encode, bytes, handled, read, begun, tracked, parsed]

/-- What a ping or a pong makes of a client. -/
def controlDone (ws : WebSocket W) (c : Control) : WebSocket W :=
  let written := { ws with
    pingLen := c.payload.length, pingFrameBytes := ws.pingFrameBytes.write 0 c.payload }
  if c.isPing then finishPing env { written with pingReceived := true }
  else finishPong env { written with pongReceived := true }

/-- The variables behind the header of a control frame. -/
abbrev controlLocals (c : Control) (last : Opcode) : Locals :=
  { receiveState := if c.isPing then .ping else .pong
    receivingType := if c.isPing then .ping else .pong
    receiveBodyRemain := c.payload.length
    isFinal := true
    isFragmented := false
    lastReceiveDataType := last }

/-- The payload of a control frame, from the state its header leads to. -/
theorem run_control {received : Bool} (ws noted : WebSocket W)
    (finish : WebSocket W → WebSocket W) (l : Locals) (c : Control) (turns : Nat)
    (taken : turn env (ws, l) c.payload =
      receiveControl env received noted finish ws l c.payload)
    (fresh : received = false) (length : l.receiveBodyRemain = c.payload.length)
    (note : noted.pingLen = c.payload.length) :
    (dataLoop env).run (turns + 1) (ws, l) c.payload =
      some (.left
        { ws := finish
            { noted with pingFrameBytes := noted.pingFrameBytes.write 0 c.payload }
          progress := behindFrame l.lastReceiveDataType }) := by
  have small := c.small
  have accepted : ¬(!false && decide (125 < l.receiveBodyRemain)) = true := by
    rw [length]
    simpa using small
  have missing : noted.pingLen - 0 = c.payload.length := note
  rw [fresh, receiveControl_eq env false noted finish ws l c.payload
    (fun received => Bool.noConfusion received), if_neg accepted] at taken
  dsimp only at taken
  rw [if_neg Bool.false_ne_true] at taken
  dsimp only at taken
  rw [missing, if_neg (Nat.lt_irrefl _), List.take_length, List.drop_length] at taken
  rw [ChunkLoop.run, show (dataLoop env).turn (ws, l) c.payload = _ from taken]
  rfl

theorem control_handled {r : Receiver W} (between : BetweenFrames r) (c : Control) :
    (dataLoop env).handle r (SentFrame.control c).encode =
      some (.left
        { ws := controlDone env r.ws c
          progress := behindFrame r.progress.receivingType }) := by
  have quiet := between.quiet
  obtain ⟨isPing, payload, small⟩ := c
  obtain ⟨b0, b1, bytes, header⟩ := encodeFrame_bytes true false
    (if isPing then .ping else .pong) payload
  have parsed := parse_control header small
  have noExtension : frameBody payload = payload := by
    unfold frameBody lengthByteCount
    rw [if_pos small]
    rfl
  obtain ⟨turns, handled⟩ := handle_header env between b0 b1 payload
  rw [noExtension] at bytes
  have begun : readHeader env r.ws r.load.2 b0 b1 =
      .pass (r.ws, controlLocals ⟨isPing, payload, small⟩ r.progress.receivingType) := by
    unfold readHeader beginFrame trackCompression
    rw [parsed]
    cases isPing <;> simp [isSupported, Receiver.load]
  rw [SentFrame.encode, Control.opcode]
  dsimp only
  rw [bytes, handled, begun, Finish.turn]
  dsimp only
  cases isPing with
  | true =>
      exact run_control env r.ws { r.ws with pingLen := payload.length, pingReceived := true }
        (finishPing env) (controlLocals ⟨true, payload, small⟩ r.progress.receivingType)
        ⟨true, payload, small⟩ (turns + 1) rfl quiet.pingReceived rfl rfl
  | false =>
      exact run_control env r.ws { r.ws with pingLen := payload.length, pongReceived := true }
        (finishPong env) (controlLocals ⟨false, payload, small⟩ r.progress.receivingType)
        ⟨false, payload, small⟩ (turns + 1) rfl quiet.pongReceived rfl rfl

end Frames

end Bunx.Websocket
