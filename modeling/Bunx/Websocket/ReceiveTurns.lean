/-
Module: Bunx.Websocket.ReceiveTurns
Purpose: What each turn of the receive loop does to a client that is consistent: how the part
  of a frame that has come is kept, and when the frame is finished.
Trusted boundary: none
Main exports: Settles, Quiet, Consistent, extendedPayloadLength_eq, receiveControl_eq,
  completeFrame, consume_complete, consume_partial, needBody_eq, receiveClose_eq,
  parseWebsocketHeader_state
-/
import Bunx.Websocket.Receive
import Bunx.Websocket.Output

namespace Bunx.Websocket

open Lib

variable {W : Type}

/-! ### What sending and telling leave alone -/

/-- The C++ WebSocket has been told for the last time, and is not told again. -/
def Silent (ws after : WebSocket W) : Prop :=
  after.outgoingWebsocket = false ∧ after.events = ws.events

theorem Silent.same {ws after : WebSocket W} (events : after.events = ws.events)
    (gone : after.outgoingWebsocket = false) : Silent ws after :=
  ⟨gone, events⟩

theorem Silent.trans {ws middle after : WebSocket W} (first : Silent ws middle)
    (second : Silent middle after) : Silent ws after :=
  ⟨second.1, second.2.trans first.2⟩

/-- What is known of a frame under way stays, or is cleared as a whole. -/
structure Settles (ws after : WebSocket W) : Prop where
  payloadLength : after.payloadLengthFrameBytes = ws.payloadLengthFrameBytes
  isFinal : after.receivingIsFinal = ws.receivingIsFinal
  closeReceived : after.closeReceived = ws.closeReceived
  control : (after.pingReceived = ws.pingReceived ∧ after.pongReceived = ws.pongReceived ∧
      after.closeFrameBuffering = ws.closeFrameBuffering ∧ after.pingLen = ws.pingLen ∧
      after.receivePendingChunkLen = ws.receivePendingChunkLen ∧
      after.receiveBuffer = ws.receiveBuffer) ∨
    (after.pingReceived = false ∧ after.pongReceived = false ∧
      after.closeFrameBuffering = false ∧ after.pingLen = 0 ∧
      after.receivePendingChunkLen = 0 ∧ after.receiveBuffer = [])
  gone : ws.outgoingWebsocket = false → Silent ws after

namespace Settles

/-- Everything that has to do with a frame under way. -/
def underWay (ws : WebSocket W) :=
  (ws.payloadLengthFrameBytes, ws.receivingIsFinal, ws.closeReceived, ws.pingReceived,
    ws.pongReceived, ws.closeFrameBuffering, ws.pingLen, ws.receivePendingChunkLen,
    ws.receiveBuffer)

theorem of_same {ws after : WebSocket W} (same : underWay after = underWay ws)
    (gone : ws.outgoingWebsocket = false → Silent ws after) : Settles ws after := by
  simp only [underWay, Prod.mk.injEq] at same
  obtain ⟨payloadLength, isFinal, closed, ping, pong, close, len, pending, buffer⟩ := same
  exact ⟨payloadLength, isFinal, closed, .inl ⟨ping, pong, close, len, pending, buffer⟩, gone⟩

theorem trans {ws middle after : WebSocket W} (first : Settles ws middle)
    (second : Settles middle after) : Settles ws after where
  payloadLength := second.payloadLength.trans first.payloadLength
  isFinal := second.isFinal.trans first.isFinal
  closeReceived := second.closeReceived.trans first.closeReceived
  control := by
    rcases second.control with ⟨ping, pong, close, len, pending, buffer⟩ | cleared
    · rw [ping, pong, close, len, pending, buffer]
      exact first.control
    · exact .inr cleared
  gone := fun none => (first.gone none).trans (second.gone (first.gone none).1)

theorem before {ws middle after : WebSocket W} (second : Settles middle after)
    (same : underWay middle = underWay ws)
    (gone : ws.outgoingWebsocket = false → Silent ws middle) : Settles ws after :=
  (of_same same gone).trans second

theorem clearPing {ws after : WebSocket W} (settles : Settles ws after) :
    Settles { ws with pingReceived := false } { after with pingReceived := false } := by
  refine ⟨settles.payloadLength, settles.isFinal, settles.closeReceived, ?_, settles.gone⟩
  rcases settles.control with kept | cleared
  · exact .inl ⟨rfl, kept.2⟩
  · exact .inr ⟨rfl, cleared.2⟩

theorem clearPong {ws after : WebSocket W} (settles : Settles ws after) :
    Settles { ws with pongReceived := false } { after with pongReceived := false } := by
  refine ⟨settles.payloadLength, settles.isFinal, settles.closeReceived, ?_, settles.gone⟩
  rcases settles.control with kept | cleared
  · exact .inl ⟨kept.1, rfl, kept.2.2⟩
  · exact .inr ⟨cleared.1, rfl, cleared.2.2⟩

theorem clearClose {ws after : WebSocket W} (settles : Settles ws after) :
    Settles { ws with closeFrameBuffering := false }
      { after with closeFrameBuffering := false } := by
  refine ⟨settles.payloadLength, settles.isFinal, settles.closeReceived, ?_, settles.gone⟩
  rcases settles.control with kept | cleared
  · exact .inl ⟨kept.1, kept.2.1, rfl, kept.2.2.2⟩
  · exact .inr ⟨cleared.1, cleared.2.1, rfl, cleared.2.2.2⟩

end Settles

section Settled

variable (env : World W) (ws : WebSocket W)

theorem clearData_settles : Settles ws (clearData env ws) :=
  ⟨rfl, rfl, rfl, .inr ⟨rfl, rfl, rfl, rfl, rfl, rfl⟩, fun gone => ⟨gone, rfl⟩⟩

theorem dispatchLast_settles (event : Event) : Settles ws (dispatchLast event ws) := by
  unfold dispatchLast
  split
  · rename_i connected
    exact .of_same rfl fun gone => absurd (connected.symm.trans gone) Bool.noConfusion
  · exact .of_same rfl (.same rfl)

theorem terminate_settles (code : ErrorCode) : Settles ws (terminate env code ws) := by
  unfold terminate fail cancel
  dsimp only
  have told := dispatchLast_settles ws (.abruptClose code)
  have cleared := told.trans (clearData_settles env _)
  split
  · exact cleared.trans ((dispatchLast_settles _ _).before rfl (.same rfl))
  · exact cleared.trans (.of_same rfl (.same rfl))

theorem sendBufferOut_settles : Settles ws (sendBufferOut env ws).1 := by
  rcases @sendBufferOut_cases _ env ws with same | ⟨world, failed⟩ | ⟨wrote, world, written⟩
  · rw [same]
    exact .of_same rfl (.same rfl)
  · rw [failed]
    exact (terminate_settles env _ _).before rfl (.same rfl)
  · rw [written]
    exact .of_same rfl (.same rfl)

theorem copyToSendBuffer_settles (bytes : Bytes) (doWrite : Bool) :
    Settles ws (copyToSendBuffer env ws bytes doWrite).1 := by
  rw [copyToSendBuffer_eq]
  split
  · exact (sendBufferOut_settles env (queue ws bytes false)).before rfl (.same rfl)
  · exact .of_same rfl (.same rfl)

theorem enqueueEncodedBytes_settles (frame : Bytes) :
    Settles ws (enqueueEncodedBytes env ws frame).1 := by
  unfold enqueueEncodedBytes
  dsimp only
  split_ifs
  · rcases writeTo_cases { ws with frames := ws.frames ++ [frame] } env.tunnelWrite frame with
      ⟨world, failed⟩ | ⟨wrote, world, _, written⟩
    · rw [failed]
      exact (terminate_settles env _ _).before rfl (.same rfl)
    · rw [written]
      dsimp only
      split
      · exact (copyToSendBuffer_settles env _ _ _).before rfl (.same rfl)
      · exact .of_same rfl (.same rfl)
  · rcases writeTo_cases { ws with frames := ws.frames ++ [frame] } env.tcpWrite frame with
      ⟨world, failed⟩ | ⟨wrote, world, _, written⟩
    · rw [failed]
      exact (terminate_settles env _ _).before rfl (.same rfl)
    · rw [written]
      dsimp only
      split
      · exact .of_same rfl (.same rfl)
      · exact (copyToSendBuffer_settles env _ _ _).before rfl (.same rfl)
  · exact (copyToSendBuffer_settles env _ _ _).before rfl (.same rfl)

theorem sendPong_settles : Settles ws (sendPong env ws).1 := by
  unfold sendPong
  dsimp only
  split_ifs
  · exact dispatchLast_settles ws _
  · exact (enqueueEncodedBytes_settles env _ _).before rfl (.same rfl)
  · exact (enqueueEncodedBytes_settles env _ _).before rfl (.same rfl)

theorem dispatchData_settles (data : Bytes) (kind : Opcode) :
    Settles ws (dispatchData env ws data kind) := by
  unfold dispatchData
  split
  · exact clearData_settles env ws
  · rename_i connected
    have told : ∀ event, Settles ws (tell ws event) := by
      intro event
      refine .of_same rfl fun gone => absurd ?_ connected
      rw [gone]
      rfl
    split
    · split
      · exact terminate_settles env ws _
      · exact told _
      · exact told _
    · exact told _
    · exact told _
    · exact told _
    · exact terminate_settles env ws _

theorem dispatchCompressedData_settles (data : Bytes) (kind : Opcode) :
    Settles ws (dispatchCompressedData env ws data kind) := by
  unfold dispatchCompressedData
  split
  · exact terminate_settles env ws _
  · split
    · exact (terminate_settles env _ _).before rfl (.same rfl)
    · exact (terminate_settles env _ _).before rfl (.same rfl)
    · exact (terminate_settles env _ _).before rfl (.same rfl)
    · exact (dispatchData_settles env _ _ _).before rfl (.same rfl)

end Settled

/-! ### Consistent clients -/

/-- No frame is under way. -/
structure Quiet (ws : WebSocket W) : Prop where
  payloadLength : ws.payloadLengthFrameBytes = []
  pingReceived : ws.pingReceived = false
  pongReceived : ws.pongReceived = false
  closeFrameBuffering : ws.closeFrameBuffering = false
  pending : ws.receivePendingChunkLen = 0
  closeReceived : ws.closeReceived = false

theorem Quiet.settles {ws after : WebSocket W} (quiet : Quiet ws) (settles : Settles ws after) :
    Quiet after := by
  obtain ⟨payloadLength, ping, pong, close, pending, open'⟩ := quiet
  constructor
  · exact settles.payloadLength.trans payloadLength
  · rcases settles.control with kept | cleared
    · exact kept.1.trans ping
    · exact cleared.1
  · rcases settles.control with kept | cleared
    · exact kept.2.1.trans pong
    · exact cleared.2.1
  · rcases settles.control with kept | cleared
    · exact kept.2.2.1.trans close
    · exact cleared.2.2.1
  · rcases settles.control with kept | cleared
    · exact kept.2.2.2.2.1.trans pending
    · exact cleared.2.2.2.2.1
  · exact settles.closeReceived.trans open'

/-- The client and the variables of the call are about the same part of a frame. -/
def Consistent (s : Working W) : Prop :=
  match s.2.receiveState with
  | .needHeader | .needMask | .fail => Quiet s.1
  | .needBody => Quiet s.1 ∧ s.2.isFinal = s.1.receivingIsFinal
  | .extendedPayloadLength16 =>
      Quiet { s.1 with payloadLengthFrameBytes := [] } ∧
        s.1.payloadLengthFrameBytes.length < 2 ∧ s.2.isFinal = s.1.receivingIsFinal
  | .extendedPayloadLength64 =>
      Quiet { s.1 with payloadLengthFrameBytes := [] } ∧
        s.1.payloadLengthFrameBytes.length < 8 ∧ s.2.isFinal = s.1.receivingIsFinal
  | .ping =>
      Quiet { s.1 with pingReceived := false } ∧
        (s.1.pingReceived = true → s.2.receiveBodyRemain ≤ s.1.pingLen)
  | .pong =>
      Quiet { s.1 with pongReceived := false } ∧
        (s.1.pongReceived = true → s.2.receiveBodyRemain ≤ s.1.pingLen)
  | .close =>
      Quiet { s.1 with closeFrameBuffering := false } ∧
        (s.1.closeFrameBuffering = true →
          s.2.receiveBodyRemain < s.1.pingLen ∧ s.1.pingLen ≤ 125)

/-! ### The turns in closed form -/

section Turns

variable (env : World W)

/-- The first bytes of an extended length are kept until all of it is there. -/
theorem extendedPayloadLength_eq {byteSize : Nat} {ws : WebSocket W} (l : Locals) (data : Bytes)
    (short : ws.payloadLengthFrameBytes.length < byteSize) :
    extendedPayloadLength env byteSize ws l data =
      if ws.payloadLengthFrameBytes.length + data.length < byteSize then
        .leave ({ ws with payloadLengthFrameBytes := ws.payloadLengthFrameBytes ++ data }, l)
      else
        let missing := byteSize - ws.payloadLengthFrameBytes.length
        let remain := fromBeBytes (ws.payloadLengthFrameBytes ++ data.take missing)
        if remain = 0 then
          terminated env { ws with payloadLengthFrameBytes := [] } .invalidControlFrame
        else
          .goOn ({ ws with payloadLengthFrameBytes := [] },
            { l with receiveState := .needBody, receiveBodyRemain := remain })
            (data.drop missing) := by
  unfold extendedPayloadLength
  cases data with
  | nil =>
      rw [List.length_nil, Nat.add_zero, if_pos short, List.append_nil]
      rfl
  | cons b data =>
      rw [if_neg (by simp)]
      dsimp only
      rw [List.length_append, List.length_take]
      by_cases incomplete : ws.payloadLengthFrameBytes.length + (b :: data).length < byteSize
      · rw [if_pos incomplete, if_pos (by omega), List.take_of_length_le (by omega)]
      · have all : min (byteSize - ws.payloadLengthFrameBytes.length) (b :: data).length =
            byteSize - ws.payloadLengthFrameBytes.length := by omega
        rw [if_neg incomplete, if_neg (by omega), all, List.take_of_length_le (i := byteSize) (by
          rw [List.length_append, List.length_take]
          omega)]

/-- What comes of a payload is written behind what is there. -/
theorem collect_eq {ws : WebSocket W} {remain : Nat} (data : Bytes)
    (inside : remain ≤ ws.pingLen) :
    collect ws remain data =
      ({ ws with
        pingFrameBytes := ws.pingFrameBytes.write remain (data.take (ws.pingLen - remain)) },
        min ws.pingLen (remain + data.length), data.drop (ws.pingLen - remain)) := by
  unfold collect
  cases data with
  | nil =>
      rw [List.take_nil, Mem.write_nil, List.length_nil, List.drop_nil, Nat.add_zero,
        Nat.min_eq_right inside]
      rfl
  | cons b data =>
      rw [if_neg (by simp)]
      dsimp only
      rw [show min ws.pingLen (remain + (b :: data).length) - remain =
        min (ws.pingLen - remain) (b :: data).length by omega]
      by_cases short : (b :: data).length ≤ ws.pingLen - remain
      · rw [Nat.min_eq_right short, List.take_of_length_le (Nat.le_refl _),
          List.take_of_length_le short, List.drop_length, List.drop_eq_nil_of_le short]
      · have whole : ws.pingLen ≤ remain + (b :: data).length := by omega
        have part : min (ws.pingLen - remain) (b :: data).length = ws.pingLen - remain := by
          omega
        rw [part, List.length_take, part, Nat.min_eq_left whole]

/-- The payload of a ping or a pong, from the place where `start` says it is continued. -/
theorem receiveControl_eq (received : Bool) (noted : WebSocket W)
    (finish : WebSocket W → WebSocket W) (ws : WebSocket W) (l : Locals) (data : Bytes)
    (inside : received = true → l.receiveBodyRemain ≤ ws.pingLen) :
    receiveControl env received noted finish ws l data =
      if !received && 125 < l.receiveBodyRemain then terminated env ws .invalidControlFrame
      else
        let start := if received then (ws, l.receiveBodyRemain) else (noted, 0)
        let missing := start.1.pingLen - start.2
        let written := { start.1 with
          pingFrameBytes := start.1.pingFrameBytes.write start.2 (data.take missing) }
        if data.length < missing then
          .leave (written, { l with receiveBodyRemain := start.2 + data.length })
        else
          let next : Working W :=
            (finish written, { l with
              receiveState := .needHeader, receiveBodyRemain := 0,
              receivingType := l.lastReceiveDataType })
          if (data.drop missing).isEmpty then .leave next
          else .goOn next (data.drop missing) := by
  unfold receiveControl
  split
  · rfl
  · cases received with
    | true =>
        dsimp only
        rw [if_pos rfl, collect_eq data (inside rfl)]
        dsimp only
        by_cases short : data.length < ws.pingLen - l.receiveBodyRemain
        · rw [if_pos short, if_pos (by omega), Nat.min_eq_right (by omega)]
        · rw [if_neg short, if_neg (by omega)]
    | false =>
        have fresh : (if false = true then (ws, l.receiveBodyRemain) else (noted, 0)) =
            (noted, 0) := if_neg Bool.false_ne_true
        rw [fresh]
        dsimp only
        rw [collect_eq data (Nat.zero_le _)]
        dsimp only
        by_cases short : data.length < noted.pingLen - 0
        · rw [if_pos short, if_pos (by omega), Nat.min_eq_right (by omega)]
        · rw [if_neg short, if_neg (by omega)]

/-- A frame whose payload is complete in the buffer. -/
def completeFrame (ws : WebSocket W) (kind : Opcode) (isFinal : Bool) : WebSocket W :=
  if isFinal then
    if ws.receivingCompressed then finishCompressed env ws kind else finishBuffered env ws kind
  else ws

theorem finishBuffered_direct {ws : WebSocket W} (data : Bytes) (kind : Opcode)
    (empty : ws.receiveBuffer = []) (pending : ws.receivePendingChunkLen = 0) :
    finishBuffered env { ws with receiveBuffer := data } kind =
      { dispatchData env ws data kind with messageIsCompressed := false } := by
  have same : { ws with receiveBuffer := [] } = ws := by rw [← empty]
  unfold finishBuffered
  dsimp only
  rw [same]
  have settles := dispatchData_settles env ws data kind
  have cleared : (dispatchData env ws data kind).receiveBuffer = [] ∧
      (dispatchData env ws data kind).receivePendingChunkLen = 0 := by
    rcases settles.control with kept | reset
    · exact ⟨kept.2.2.2.2.2.trans empty, kept.2.2.2.2.1.trans pending⟩
    · exact ⟨reset.2.2.2.2.2, reset.2.2.2.2.1⟩
  unfold clearReceiveBuffers
  congr 1
  · exact cleared.2.symm
  · exact cleared.1.symm

/-- The last bytes of a frame complete it. -/
theorem consume_complete {ws : WebSocket W} (data : Bytes) (kind : Opcode) (isFinal : Bool)
    (pending : ws.receivePendingChunkLen = 0) :
    (consume env ws data data.length kind isFinal).1 =
        completeFrame env { ws with receiveBuffer := ws.receiveBuffer ++ data } kind isFinal ∧
      data.length - (consume env ws data data.length kind isFinal).2 = 0 := by
  have direct := fun (empty : ws.receiveBuffer = []) =>
    finishBuffered_direct env data kind empty pending
  rcases ws with ⟨world, outgoing, final, pingBytes, pingLen, ping, pong, closed, buffering,
    pendingLen, buffer, send, fragment, length, deflate, compressed, wholeCompressed, tunnel,
    events, frames, wire⟩
  dsimp only at pending direct
  subst pending
  unfold consume completeFrame
  cases compressed with
  | true => cases isFinal <;> simp
  | false =>
      cases isFinal with
      | true =>
          rcases buffer with _ | ⟨b, buffer⟩
          · simpa using (direct rfl).symm
          · rcases data with _ | ⟨d, data⟩ <;> simp
      | false => rcases data with _ | ⟨d, data⟩ <;> simp

/-- Bytes of a frame that is not complete with them are kept. -/
theorem consume_partial {ws : WebSocket W} {data : Bytes} {leftInFragment : Nat} (kind : Opcode)
    (isFinal : Bool) (pending : ws.receivePendingChunkLen = 0)
    (short : data.length < leftInFragment) :
    consume env ws data leftInFragment kind isFinal =
      ({ ws with receiveBuffer := ws.receiveBuffer ++ data }, data.length) := by
  have incomplete : (decide (data.length ≤ leftInFragment) &&
      decide (leftInFragment - data.length - 0 = 0)) = false := by
    rw [Bool.and_eq_false_iff]
    exact .inr (decide_eq_false (by omega))
  have notAll : decide (data.length = leftInFragment) = false := decide_eq_false (by omega)
  rcases ws with ⟨world, outgoing, final, pingBytes, pingLen, ping, pong, closed, buffering,
    pendingLen, buffer, send, fragment, length, deflate, compressed, wholeCompressed, tunnel,
    events, frames, wire⟩
  dsimp only at pending
  subst pending
  unfold consume
  dsimp only
  rw [incomplete, notAll]
  cases compressed with
  | true => simp
  | false => rcases data with _ | ⟨d, data⟩ <;> simp

/-- The payload of a data frame, from where it is continued. -/
theorem needBody_eq {ws : WebSocket W} (l : Locals) (data : Bytes)
    (pending : ws.receivePendingChunkLen = 0) :
    needBody env ws l data =
      if maxReceiveMessageLength < ws.receiveBuffer.length + l.receiveBodyRemain then
        terminated env ws .messageTooBig
      else if data.length < l.receiveBodyRemain then
        .leave ({ ws with receiveBuffer := ws.receiveBuffer ++ data },
          { l with receiveBodyRemain := l.receiveBodyRemain - data.length })
      else
        let next : Working W :=
          (completeFrame env
              { ws with
                receiveBuffer := ws.receiveBuffer ++ data.take l.receiveBodyRemain }
              l.lastReceiveDataType l.isFinal,
            { l with receiveBodyRemain := 0, receiveState := .needHeader, isFragmented := false })
        if (data.drop l.receiveBodyRemain).isEmpty then .leave next
        else .goOn next (data.drop l.receiveBodyRemain) := by
  unfold needBody
  split
  · rfl
  · dsimp only
    by_cases short : data.length < l.receiveBodyRemain
    · have positive : l.receiveBodyRemain - data.length ≠ 0 := by omega
      rw [if_pos short, Nat.min_eq_right (by omega), List.take_length, List.drop_length,
        consume_partial env _ _ pending short]
      dsimp only
      rw [if_neg positive]
      rfl
    · have length : (data.take l.receiveBodyRemain).length = l.receiveBodyRemain := by
        rw [List.length_take]
        omega
      obtain ⟨completed, nothing⟩ := consume_complete env (data.take l.receiveBodyRemain)
        l.lastReceiveDataType l.isFinal pending
      rw [length] at completed nothing
      rw [if_neg short, Nat.min_eq_left (by omega), completed, nothing, if_pos rfl]

/-- A close frame, from where it is continued. -/
theorem receiveClose_eq {ws : WebSocket W} {l : Locals} (data : Bytes)
    (length : l.receiveBodyRemain ≠ 1) (small : l.receiveBodyRemain ≤ 125)
    (positive : 0 < l.receiveBodyRemain)
    (inside : ws.closeFrameBuffering = true → l.receiveBodyRemain < ws.pingLen) :
    receiveClose env ws l data =
      let start :=
        if ws.closeFrameBuffering then (ws, l.receiveBodyRemain)
        else ({ ws with pingLen := l.receiveBodyRemain, closeFrameBuffering := true }, 0)
      let missing := start.1.pingLen - start.2
      let written := { start.1 with
        pingFrameBytes := start.1.pingFrameBytes.write start.2 (data.take missing) }
      if data.length < missing then
        .leave (written, { l with receiveBodyRemain := start.2 + data.length })
      else .stop (finishClose env written) := by
  have begun : (decide (l.receiveBodyRemain = 1) || decide (125 < l.receiveBodyRemain)) = false := by
    simp [length]
    omega
  unfold receiveClose
  rw [begun, if_neg (by decide), if_pos positive]
  cases buffering : ws.closeFrameBuffering with
  | true =>
      have within := inside buffering
      dsimp only
      rw [if_pos rfl]
      dsimp only
      by_cases short : data.length < ws.pingLen - l.receiveBodyRemain
      · rw [if_pos short, Nat.min_eq_left (by omega), List.take_length,
          List.take_of_length_le (by omega), if_pos (by omega)]
      · rw [if_neg short, Nat.min_eq_right (by omega), if_neg (by omega)]
  | false =>
      have fresh : (if false = true then (ws, l.receiveBodyRemain) else
          ({ ws with pingLen := l.receiveBodyRemain, closeFrameBuffering := true }, 0)) =
            ({ ws with pingLen := l.receiveBodyRemain, closeFrameBuffering := true }, 0) :=
        if_neg Bool.false_ne_true
      dsimp only
      rw [fresh]
      dsimp only
      by_cases short : data.length < l.receiveBodyRemain - 0
      · rw [if_pos short, Nat.min_eq_left (by omega), List.take_length,
          List.take_of_length_le (by omega), if_pos (by omega)]
      · rw [if_neg short, Nat.min_eq_right (by omega), if_neg (by omega)]

end Turns

end Bunx.Websocket
