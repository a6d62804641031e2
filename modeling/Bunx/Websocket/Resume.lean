/-
Module: Bunx.Websocket.Resume
Purpose: The receive loop is resumable, except in a close frame of which not two bytes of
  payload have come: cutting the input elsewhere changes nothing.
Trusted boundary: none
Main exports: Valid, Whole, rank, Collects, turn_alike, lawful
-/
import Bunx.Websocket.ReceiveTurns

namespace Bunx.Websocket

open Lib ChunkLoop

variable {W : Type}

/-- A turn can be taken on the chunk. -/
def Valid (s : Working W) (data : Bytes) : Prop :=
  (s.2.receiveState = .needHeader → data ≠ []) ∧ Consistent s

/-- No close frame is under way, or two bytes of its payload are there. -/
def Whole (r : Receiver W) : Prop :=
  r.progress.receiveState = .close → 2 ≤ r.progress.receiveBodyRemain

/-- A byte is followed by three turns at most: the header, the extended length, the body. -/
def rank (s : Working W) (data : Bytes) : Nat :=
  3 * data.length +
    match s.2.receiveState with
    | .needHeader => 0
    | .extendedPayloadLength16 | .extendedPayloadLength64 => 2
    | _ => 1

/-! ### The turn in each state -/

section States

variable (env : World W)

/-- The turn of `s` gathers. -/
abbrev Collects (s : Working W) : Prop :=
  ∃ n keep done, Gathers (dataLoop env) Valid Whole rank s n keep done

/-- A state in which the connection is closed. -/
theorem collects_stop {s : Working W} {result : WebSocket W}
    (stops : ∀ data, Valid s data → turn env s data = .stop result) : Collects env s := by
  refine ⟨0, fun _ => s, fun _ => .stop result, ?_⟩
  constructor
  · intro chunk valid
    exact stops chunk valid
  · intro chunk more _ short
    exact absurd short (Nat.not_lt_zero _)
  · intro chunk more _ short
    exact absurd short (Nat.not_lt_zero _)
  · intro chunk t _ _ same
    cases same
  · intro chunk t _ _ same
    cases same

/-- The bytes of an extended length are gathered. -/
theorem collects_extended (byteSize : Nat) {ws : WebSocket W} {l : Locals}
    (turns : ∀ ws data, turn env (ws, l) data = extendedPayloadLength env byteSize ws l data)
    (consistent : ∀ ws : WebSocket W, Consistent (ws, l) ↔
      Quiet { ws with payloadLengthFrameBytes := [] } ∧
        ws.payloadLengthFrameBytes.length < byteSize ∧ l.isFinal = ws.receivingIsFinal)
    (ranks : ∀ (ws : WebSocket W) data, rank (ws, l) data = 3 * data.length + 2)
    (notHeader : l.receiveState ≠ .needHeader) (now : Consistent (ws, l)) :
    Collects env (ws, l) := by
  obtain ⟨quiet, short, final⟩ := (consistent ws).mp now
  refine ⟨byteSize - ws.payloadLengthFrameBytes.length,
    fun chunk =>
      ({ ws with payloadLengthFrameBytes := ws.payloadLengthFrameBytes ++ chunk }, l),
    fun part =>
      let remain := fromBeBytes (ws.payloadLengthFrameBytes ++ part)
      if remain = 0 then
        .stop (terminate env .invalidControlFrame { ws with payloadLengthFrameBytes := [] })
      else
        .pass ({ ws with payloadLengthFrameBytes := [] },
          { l with receiveState := .needBody, receiveBodyRemain := remain }), ?_⟩
  constructor
  · intro chunk _
    refine (turns ws chunk).trans ((extendedPayloadLength_eq env l chunk short).trans ?_)
    by_cases incomplete : chunk.length < byteSize - ws.payloadLengthFrameBytes.length
    · rw [if_pos incomplete, if_pos (by omega)]
    · have whole : ¬ws.payloadLengthFrameBytes.length + chunk.length < byteSize := by omega
      rw [if_neg incomplete, if_neg whole]
      dsimp only
      by_cases zero : fromBeBytes (ws.payloadLengthFrameBytes ++
          chunk.take (byteSize - ws.payloadLengthFrameBytes.length)) = 0
      · rw [if_pos zero, if_pos zero]
        rfl
      · rw [if_neg zero, if_neg zero]
        rfl
  · intro chunk more _ missing _ _
    refine (turns _ more).trans (Eq.trans ?_ (turns ws _).symm)
    rw [extendedPayloadLength_eq env l _ short, extendedPayloadLength_eq env l more (by
      rw [List.length_append]
      omega)]
    have allTaken : chunk.take (byteSize - ws.payloadLengthFrameBytes.length) = chunk :=
      List.take_of_length_le (by omega)
    have noneLeft : chunk.drop (byteSize - ws.payloadLengthFrameBytes.length) = [] :=
      List.drop_eq_nil_of_le (by omega)
    dsimp only
    rw [List.length_append, List.length_append, Nat.add_assoc, List.append_assoc,
      List.append_assoc, List.take_append, List.drop_append, allTaken, noneLeft,
      List.nil_append, Nat.sub_sub]
  · intro chunk more _ missing _
    refine ⟨fun header => absurd header notHeader, (consistent _).mpr ⟨quiet, ?_, final⟩⟩
    rw [List.length_append]
    omega
  · intro chunk t _ long same
    dsimp only at same
    split at same
    · cases same
    · cases same
      refine ⟨⟨(by intro header; cases header), quiet, final⟩, ?_⟩
      change 3 * (chunk.drop _).length + 1 < rank (ws, l) chunk
      rw [ranks, List.length_drop]
      omega
  · intro chunk t _ _ same
    dsimp only at same
    split at same <;> cases same

/-- Write a part of the payload of a control frame. -/
abbrev writePart (ws : WebSocket W) (place : Nat) (part : Bytes) : WebSocket W :=
  { ws with pingFrameBytes := ws.pingFrameBytes.write place part }

/-- The variables when so much of a payload is there. -/
abbrev progressed (l : Locals) (place : Nat) : Locals := { l with receiveBodyRemain := place }

/-- The variables behind a control frame. -/
abbrev behindControl (l : Locals) : Locals :=
  { l with
    receiveState := .needHeader, receiveBodyRemain := 0, receivingType := l.lastReceiveDataType }

/-- What pings and pongs have in common: `received` says whether the length is noted, `note`
notes it, and `Calm` that nothing else is under way. -/
structure ControlTurn (state : ReceiveState) (received : WebSocket W → Bool)
    (note : Nat → WebSocket W → WebSocket W) (finish : WebSocket W → WebSocket W)
    (Calm : WebSocket W → Prop) : Prop where
  notHeader : state ≠ .needHeader
  turn_eq : ∀ ws l data, l.receiveState = state → turn env (ws, l) data =
    receiveControl env (received ws) (note l.receiveBodyRemain ws) finish ws l data
  consistent : ∀ ws l, l.receiveState = state → (Consistent (ws, l) ↔
    Calm ws ∧ (received ws = true → l.receiveBodyRemain ≤ ws.pingLen))
  rank_eq : ∀ ws l data, l.receiveState = state →
    rank ((ws, l) : Working W) data = 3 * data.length + 1
  calm_note : ∀ {ws} n, Calm ws → Calm (note n ws)
  calm_write : ∀ {ws : WebSocket W} m, Calm ws → Calm { ws with pingFrameBytes := m }
  received_note : ∀ ws n, received (note n ws) = true
  pingLen_note : ∀ ws n, (note n ws).pingLen = n
  received_write : ∀ (ws : WebSocket W) m, received { ws with pingFrameBytes := m } = received ws
  quiet_finish : ∀ {ws}, Calm ws → Quiet (finish ws)

/-- The payload of a ping or a pong is gathered. -/
theorem collects_control {state : ReceiveState} {received : WebSocket W → Bool}
    {note : Nat → WebSocket W → WebSocket W} {finish : WebSocket W → WebSocket W}
    {Calm : WebSocket W → Prop} (control : ControlTurn env state received note finish Calm)
    {ws : WebSocket W} {l : Locals} (here : l.receiveState = state)
    (now : Consistent (ws, l)) : Collects env (ws, l) := by
  obtain ⟨calm, inside⟩ := (control.consistent ws l here).mp now
  by_cases long : (!received ws && decide (125 < l.receiveBodyRemain)) = true
  · apply collects_stop
    intro data _
    rw [control.turn_eq ws l data here, receiveControl, if_pos long]
    rfl
  · -- The client and the place where the payload is continued.
    obtain ⟨ws₁, place, start, received₁, inside₁, calm₁⟩ : ∃ ws₁ place,
        (if received ws then (ws, l.receiveBodyRemain) else (note l.receiveBodyRemain ws, 0)) =
          (ws₁, place) ∧ received ws₁ = true ∧ place ≤ ws₁.pingLen ∧ Calm ws₁ := by
      by_cases noted : received ws = true
      · exact ⟨ws, l.receiveBodyRemain, if_pos noted, noted, inside noted, calm⟩
      · exact ⟨note l.receiveBodyRemain ws, 0, if_neg noted, control.received_note ws _,
          Nat.zero_le _, control.calm_note _ calm⟩
    have first : ∀ data, turn env (ws, l) data =
        if data.length < ws₁.pingLen - place then
          .leave (writePart ws₁ place (data.take (ws₁.pingLen - place)),
            progressed l (place + data.length))
        else
          Finish.turn (data.drop (ws₁.pingLen - place))
            (.wait (finish (writePart ws₁ place (data.take (ws₁.pingLen - place))),
              behindControl l)) := by
      intro data
      rw [control.turn_eq ws l data here, receiveControl_eq env _ _ _ ws l data inside,
        if_neg long, start]
      rfl
    refine ⟨ws₁.pingLen - place,
      fun chunk => (writePart ws₁ place (chunk.take (ws₁.pingLen - place)),
        progressed l (place + chunk.length)),
      fun part => .wait (finish (writePart ws₁ place part), behindControl l), ?_⟩
    constructor
    · intro chunk _
      exact first chunk
    · intro chunk more _ short _ _
      have allTaken : chunk.take (ws₁.pingLen - place) = chunk :=
        List.take_of_length_le (by omega)
      have noneLeft : chunk.drop (ws₁.pingLen - place) = [] :=
        List.drop_eq_nil_of_le (by omega)
      refine Eq.trans ?_ (first (chunk ++ more)).symm
      have still : (progressed l (place + chunk.length)).receiveState = state := here
      refine (control.turn_eq _ _ more still).trans ?_
      rw [control.received_write, received₁, receiveControl_eq env _ _ _ _ _ more (by
        intro _
        dsimp only
        omega)]
      rw [if_neg (by simp), if_pos rfl]
      dsimp only
      rw [allTaken, List.take_append, List.drop_append, allTaken, noneLeft, List.nil_append,
        Mem.write_write, List.length_append, Nat.sub_sub]
      by_cases lacking : more.length < ws₁.pingLen - (place + chunk.length)
      · rw [if_pos lacking, if_pos (by omega), Nat.add_assoc]
      · have whole : ¬chunk.length + more.length < ws₁.pingLen - place := by omega
        rw [if_neg lacking, if_neg whole]
        rfl
    · intro chunk more _ short _
      refine ⟨fun header => absurd (here.symm.trans header) control.notHeader, ?_⟩
      have still : (progressed l (place + chunk.length)).receiveState = state := here
      refine (control.consistent _ _ still).mpr ⟨control.calm_write _ calm₁, fun _ => ?_⟩
      dsimp only
      omega
    · intro chunk t _ _ same
      cases same
    · intro chunk t _ long same
      cases same
      refine ⟨fun more nonempty => ⟨fun _ => nonempty, ?_⟩, ?_⟩
      · exact control.quiet_finish (control.calm_write _ calm₁)
      · change 3 * (chunk.drop _).length + 0 < rank (ws, l) chunk
        rw [control.rank_eq ws l chunk here, List.length_drop]
        omega

theorem receiveControl_alike (received : Bool) (noted : WebSocket W)
    (finish : WebSocket W → WebSocket W) (ws : WebSocket W) (l l' : Locals) (data : Bytes)
    (same : l.receiveBodyRemain = l'.receiveBodyRemain ∧ l.receiveState = l'.receiveState ∧
      l.lastReceiveDataType = l'.lastReceiveDataType) :
    Alike (dataLoop env) (receiveControl env received noted finish ws l data)
      (receiveControl env received noted finish ws l' data) := by
  obtain ⟨state, type, remain, final, fragmented, last⟩ := l
  obtain ⟨state', type', remain', final', fragmented', last'⟩ := l'
  obtain ⟨rfl, rfl, rfl⟩ := same
  unfold receiveControl
  dsimp only
  split_ifs <;> first | exact .stop _ | exact .leave rfl | exact .goOn _ rfl

/-- A pending ping. -/
theorem pingTurn : ControlTurn env .ping (fun ws => ws.pingReceived)
    (fun n ws => { ws with pingLen := n, pingReceived := true }) (finishPing env)
    (fun ws => Quiet { ws with pingReceived := false }) where
  notHeader := by decide
  turn_eq := by
    intro ws l data here
    rw [turn, here]
    rfl
  consistent := by
    intro ws l here
    rw [Consistent, here]
  rank_eq := by
    intro ws l data here
    rw [rank, here]
  calm_note := fun _ calm => ⟨calm.1, rfl, calm.3, calm.4, calm.5, calm.6⟩
  calm_write := fun _ calm => ⟨calm.1, rfl, calm.3, calm.4, calm.5, calm.6⟩
  received_note := fun _ _ => rfl
  pingLen_note := fun _ _ => rfl
  received_write := fun _ _ => rfl
  quiet_finish := by
    intro ws calm
    have told := (dispatchData_settles env ws (ws.pingFrameBytes.slice ws.pingLen) .ping).clearPing
    exact calm.settles (told.trans (sendPong_settles env _))

/-- A pending pong. -/
theorem pongTurn : ControlTurn env .pong (fun ws => ws.pongReceived)
    (fun n ws => { ws with pingLen := n, pongReceived := true }) (finishPong env)
    (fun ws => Quiet { ws with pongReceived := false }) where
  notHeader := by decide
  turn_eq := by
    intro ws l data here
    rw [turn, here]
    rfl
  consistent := by
    intro ws l here
    rw [Consistent, here]
  rank_eq := by
    intro ws l data here
    rw [rank, here]
  calm_note := fun _ calm => ⟨calm.1, calm.2, rfl, calm.4, calm.5, calm.6⟩
  calm_write := fun _ calm => ⟨calm.1, calm.2, rfl, calm.4, calm.5, calm.6⟩
  received_note := fun _ _ => rfl
  pingLen_note := fun _ _ => rfl
  received_write := fun _ _ => rfl
  quiet_finish := by
    intro ws calm
    exact calm.settles
      (dispatchData_settles env ws (ws.pingFrameBytes.slice ws.pingLen) .pong).clearPong

/-- What a complete frame leaves is quiet. -/
theorem completeFrame_quiet {ws : WebSocket W} (kind : Opcode) (isFinal : Bool)
    (quiet : Quiet ws) : Quiet (completeFrame env ws kind isFinal) := by
  have emptied : Quiet { ws with receiveBuffer := [] } :=
    ⟨quiet.1, quiet.2, quiet.3, quiet.4, quiet.5, quiet.6⟩
  unfold completeFrame
  split
  · split
    · have settled := emptied.settles (dispatchCompressedData_settles env _ ws.receiveBuffer kind)
      exact ⟨settled.1, settled.2, settled.3, settled.4, rfl, settled.6⟩
    · have settled := emptied.settles (dispatchData_settles env _ ws.receiveBuffer kind)
      exact ⟨settled.1, settled.2, settled.3, settled.4, rfl, settled.6⟩
  · exact quiet

/-- The payload of a data frame is gathered. -/
theorem collects_body {ws : WebSocket W} {l : Locals} (here : l.receiveState = .needBody)
    (now : Consistent (ws, l)) : Collects env (ws, l) := by
  have parts : Quiet ws ∧ l.isFinal = ws.receivingIsFinal := by
    rw [Consistent, here] at now
    exact now
  obtain ⟨quiet, final⟩ := parts
  have turns : ∀ (ws : WebSocket W) l data, l.receiveState = .needBody →
      turn env (ws, l) data = needBody env ws l data := by
    intro ws l data here
    rw [turn, here]
  by_cases big : maxReceiveMessageLength < ws.receiveBuffer.length + l.receiveBodyRemain
  · apply collects_stop
    intro data _
    rw [turns ws l data here, needBody, if_pos big]
    rfl
  · have first : ∀ data, turn env (ws, l) data =
        if data.length < l.receiveBodyRemain then
          .leave ({ ws with receiveBuffer := ws.receiveBuffer ++ data },
            progressed l (l.receiveBodyRemain - data.length))
        else
          Finish.turn (data.drop l.receiveBodyRemain)
            (.wait (completeFrame env { ws with
                receiveBuffer := ws.receiveBuffer ++ data.take l.receiveBodyRemain }
              l.lastReceiveDataType l.isFinal,
              { l with
                receiveBodyRemain := 0, receiveState := .needHeader, isFragmented := false })) := by
      intro data
      rw [turns ws l data here, needBody_eq env l data quiet.pending, if_neg big]
      rfl
    refine ⟨l.receiveBodyRemain,
      fun chunk => ({ ws with receiveBuffer := ws.receiveBuffer ++ chunk },
        progressed l (l.receiveBodyRemain - chunk.length)),
      fun part => .wait (completeFrame env { ws with receiveBuffer := ws.receiveBuffer ++ part }
        l.lastReceiveDataType l.isFinal,
        { l with receiveBodyRemain := 0, receiveState := .needHeader, isFragmented := false }), ?_⟩
    constructor
    · intro chunk _
      exact first chunk
    · intro chunk more _ short _ _
      have allTaken : chunk.take l.receiveBodyRemain = chunk :=
        List.take_of_length_le (by omega)
      have noneLeft : chunk.drop l.receiveBodyRemain = [] :=
        List.drop_eq_nil_of_le (by omega)
      have still : (progressed l (l.receiveBodyRemain - chunk.length)).receiveState = .needBody :=
        here
      refine Eq.trans ?_ (first (chunk ++ more)).symm
      refine (turns _ _ more still).trans ?_
      have pending : ({ ws with receiveBuffer := ws.receiveBuffer ++ chunk } :
          WebSocket W).receivePendingChunkLen = 0 := quiet.pending
      rw [needBody_eq env _ more pending]
      dsimp only
      rw [if_neg (by rw [List.length_append]; omega), List.take_append, List.drop_append, allTaken,
        noneLeft, List.nil_append, List.append_assoc, List.append_assoc, List.length_append]
      by_cases lacking : more.length < l.receiveBodyRemain - chunk.length
      · rw [if_pos lacking, if_pos (by omega), Nat.sub_sub]
      · have whole : ¬chunk.length + more.length < l.receiveBodyRemain := by omega
        rw [if_neg lacking, if_neg whole]
        rfl
    · intro chunk more _ _ _
      refine ⟨fun header => (by cases here.symm.trans header), ?_⟩
      rw [Consistent, here]
      exact ⟨⟨quiet.1, quiet.2, quiet.3, quiet.4, quiet.5, quiet.6⟩, final⟩
    · intro chunk t _ _ same
      cases same
    · intro chunk t _ long same
      cases same
      refine ⟨fun more nonempty => ⟨fun _ => nonempty, ?_⟩, ?_⟩
      · exact completeFrame_quiet env _ _
          ⟨quiet.1, quiet.2, quiet.3, quiet.4, quiet.5, quiet.6⟩
      · rw [rank, rank, here, List.length_drop]
        dsimp only
        omega

/-- The payload of a close frame is gathered, once two bytes of it are there. -/
theorem collects_close {ws : WebSocket W} {l : Locals} (here : l.receiveState = .close)
    (now : Consistent (ws, l)) : Collects env (ws, l) := by
  have parts : Quiet { ws with closeFrameBuffering := false } ∧
      (ws.closeFrameBuffering = true →
        l.receiveBodyRemain < ws.pingLen ∧ ws.pingLen ≤ 125) := by
    rw [Consistent, here] at now
    exact now
  obtain ⟨calm, inside⟩ := parts
  have turns : ∀ (ws : WebSocket W) l data, l.receiveState = .close →
      turn env (ws, l) data = receiveClose env ws l data := by
    intro ws l data here
    rw [turn, here]
  by_cases wrong : l.receiveBodyRemain = 1 ∨ 125 < l.receiveBodyRemain ∨ l.receiveBodyRemain = 0
  · by_cases none' : l.receiveBodyRemain = 0
    · apply collects_stop
      intro data _
      rw [turns ws l data here, receiveClose, none']
      rfl
    · apply collects_stop
      intro data _
      rw [turns ws l data here, receiveClose, if_pos]
      · rfl
      · simp only [Bool.or_eq_true, decide_eq_true_eq]
        omega
  · have notOne : l.receiveBodyRemain ≠ 1 := by omega
    have small : l.receiveBodyRemain ≤ 125 := by omega
    have positive : 0 < l.receiveBodyRemain := by omega
    obtain ⟨ws₁, place, start, buffering₁, inside₁, calm₁⟩ : ∃ (ws₁ : WebSocket W) (place : Nat),
        (if ws.closeFrameBuffering then (ws, l.receiveBodyRemain)
          else ({ ws with pingLen := l.receiveBodyRemain, closeFrameBuffering := true }, 0)) =
          (ws₁, place) ∧ ws₁.closeFrameBuffering = true ∧ (place < ws₁.pingLen ∧
            ws₁.pingLen ≤ 125) ∧ Quiet { ws₁ with closeFrameBuffering := false } := by
      by_cases noted : ws.closeFrameBuffering = true
      · exact ⟨ws, l.receiveBodyRemain, if_pos noted, noted, inside noted, calm⟩
      · exact ⟨_, 0, if_neg noted, rfl, ⟨positive, small⟩,
          ⟨calm.1, calm.2, calm.3, rfl, calm.5, calm.6⟩⟩
    have first : ∀ data, turn env (ws, l) data =
        if data.length < ws₁.pingLen - place then
          .leave (writePart ws₁ place (data.take (ws₁.pingLen - place)),
            progressed l (place + data.length))
        else
          Finish.turn (data.drop (ws₁.pingLen - place))
            (.stop (finishClose env
              (writePart ws₁ place (data.take (ws₁.pingLen - place))))) := by
      intro data
      rw [turns ws l data here, receiveClose_eq env data notOne small positive
        fun noted => (inside noted).1, start]
      rfl
    refine ⟨ws₁.pingLen - place,
      fun chunk => (writePart ws₁ place (chunk.take (ws₁.pingLen - place)),
        progressed l (place + chunk.length)),
      fun part => .stop (finishClose env (writePart ws₁ place part)), ?_⟩
    constructor
    · intro chunk _
      exact first chunk
    · intro chunk more _ short _ good
      -- Two bytes are there, so that their number is not taken for a length of none or one.
      have two : 2 ≤ place + chunk.length := good here
      have allTaken : chunk.take (ws₁.pingLen - place) = chunk :=
        List.take_of_length_le (by omega)
      have noneLeft : chunk.drop (ws₁.pingLen - place) = [] :=
        List.drop_eq_nil_of_le (by omega)
      have still : (progressed l (place + chunk.length)).receiveState = .close := here
      refine Eq.trans ?_ (first (chunk ++ more)).symm
      refine (turns _ _ more still).trans ?_
      rw [receiveClose_eq env more (by dsimp only; omega) (by dsimp only; omega)
        (by dsimp only; omega) (by intro _; dsimp only; omega)]
      rw [buffering₁, if_pos rfl]
      dsimp only
      rw [allTaken, List.take_append, List.drop_append, allTaken, noneLeft, List.nil_append,
        Mem.write_write, List.length_append, Nat.sub_sub]
      by_cases lacking : more.length < ws₁.pingLen - (place + chunk.length)
      · rw [if_pos lacking, if_pos (by omega), Nat.add_assoc]
      · have whole : ¬chunk.length + more.length < ws₁.pingLen - place := by omega
        rw [if_neg lacking, if_neg whole]
        rfl
    · intro chunk more _ short _
      refine ⟨fun header => (by cases here.symm.trans header), ?_⟩
      rw [Consistent, here]
      refine ⟨⟨calm₁.1, calm₁.2, calm₁.3, rfl, calm₁.5, calm₁.6⟩, fun _ => ⟨?_, inside₁.2⟩⟩
      dsimp only
      omega
    · intro chunk t _ _ same
      cases same
    · intro chunk t _ _ same
      cases same

/-- A frame begins in one of the other states. -/
theorem parseWebsocketHeader_state (b0 b1 : UInt8) :
    (parseWebsocketHeader b0 b1).receiveState ≠ .needHeader ∧
      ((parseWebsocketHeader b0 b1).receiveState ∈
          [.needBody, .extendedPayloadLength16, .extendedPayloadLength64] →
        (parseWebsocketHeader b0 b1).receivingType ∈ [.continued, .text, .binary]) := by
  unfold parseWebsocketHeader
  dsimp only
  split_ifs
  · exact ⟨by decide, fun data => absurd data (by decide)⟩
  · exact ⟨by decide, fun data => absurd data (by decide)⟩
  · exact ⟨by decide, fun data => absurd data (by decide)⟩
  all_goals
    cases (WebsocketHeader.fromSlice b0 b1).opcode <;> exact ⟨by decide, by decide⟩

theorem trackCompression_quiet {ws : WebSocket W} (frame : FrameStart) (quiet : Quiet ws) :
    Quiet (trackCompression ws frame) := by
  unfold trackCompression
  split_ifs <;> exact ⟨quiet.1, quiet.2, quiet.3, quiet.4, quiet.5, quiet.6⟩

theorem consistent_begun {ws : WebSocket W} {l : Locals} (quiet : Quiet ws)
    (final : l.receiveState ∈ [.needBody, .extendedPayloadLength16, .extendedPayloadLength64] →
      l.isFinal = ws.receivingIsFinal) : Consistent (ws, l) := by
  have nothing : ws.payloadLengthFrameBytes.length = 0 := by rw [quiet.payloadLength]; rfl
  unfold Consistent
  dsimp only
  split
  · exact quiet
  · exact quiet
  · exact quiet
  · rename_i here
    exact ⟨quiet, final (by rw [here]; decide)⟩
  · rename_i here
    exact ⟨⟨rfl, quiet.2, quiet.3, quiet.4, quiet.5, quiet.6⟩, by omega,
      final (by rw [here]; decide)⟩
  · rename_i here
    exact ⟨⟨rfl, quiet.2, quiet.3, quiet.4, quiet.5, quiet.6⟩, by omega,
      final (by rw [here]; decide)⟩
  · refine ⟨⟨quiet.1, rfl, quiet.3, quiet.4, quiet.5, quiet.6⟩, fun noted => ?_⟩
    rw [quiet.pingReceived] at noted
    cases noted
  · refine ⟨⟨quiet.1, quiet.2, rfl, quiet.4, quiet.5, quiet.6⟩, fun noted => ?_⟩
    rw [quiet.pongReceived] at noted
    cases noted
  · refine ⟨⟨quiet.1, quiet.2, quiet.3, rfl, quiet.5, quiet.6⟩, fun noted => ?_⟩
    rw [quiet.closeFrameBuffering] at noted
    cases noted

/-- What follows a header is consistent. -/
def Begins (finish : Finish (Working W) (WebSocket W)) : Prop :=
  match finish with
  | .stop _ => True
  | .pass t => t.2.receiveState ≠ .needHeader ∧ Consistent t
  | .wait t => t.2.receiveState = .needHeader ∧ Quiet t.1

theorem beginFrame_begins {ws : WebSocket W} {frame : FrameStart} (last : Opcode)
    (quiet : Quiet ws) (notHeader : frame.receiveState ≠ .needHeader)
    (final : frame.receiveState ∈
      [.needBody, .extendedPayloadLength16, .extendedPayloadLength64] →
        frame.isFinal = ws.receivingIsFinal) : Begins (beginFrame env ws frame last) := by
  have tracked := trackCompression_quiet frame quiet
  have sameFinal : (trackCompression ws frame).receivingIsFinal = ws.receivingIsFinal := by
    unfold trackCompression
    split_ifs <;> rfl
  unfold beginFrame
  split
  · exact trivial
  · split
    · exact trivial
    · split
      · exact trivial
      · dsimp only
        split
        · obtain ⟨consumed, _⟩ := consume_complete env [] last frame.isFinal tracked.pending
          have buffered : Quiet { trackCompression ws frame with
              receiveBuffer := (trackCompression ws frame).receiveBuffer ++ [] } :=
            ⟨tracked.1, tracked.2, tracked.3, tracked.4, tracked.5, tracked.6⟩
          have settled := completeFrame_quiet env last frame.isFinal buffered
          rw [← consumed] at settled
          exact ⟨rfl, ⟨settled.1, settled.2, settled.3, settled.4, settled.5, settled.6⟩⟩
        · refine ⟨notHeader, consistent_begun tracked fun data => ?_⟩
          exact (final data).trans sameFinal.symm

theorem readHeader_begins {ws : WebSocket W} (l : Locals) (b0 b1 : UInt8) (quiet : Quiet ws) :
    Begins (readHeader env ws l b0 b1) := by
  obtain ⟨notHeader, isData⟩ := parseWebsocketHeader_state b0 b1
  unfold readHeader
  dsimp only
  split_ifs with continued notFirst message first control
  · exact trivial
  · exact beginFrame_begins env _ ⟨quiet.1, quiet.2, quiet.3, quiet.4, quiet.5, quiet.6⟩
      notHeader fun _ => rfl
  · exact trivial
  · exact beginFrame_begins env _ ⟨quiet.1, quiet.2, quiet.3, quiet.4, quiet.5, quiet.6⟩
      notHeader fun _ => rfl
  · exact trivial
  · refine beginFrame_begins env _ quiet notHeader fun data => ?_
    -- A control frame does not begin in a state of a data frame.
    have kinds := isData data
    simp only [Bool.or_eq_true, decide_eq_true_eq] at message
    simp only [List.mem_cons, List.not_mem_nil, or_false] at kinds
    rcases kinds with kind | kind | kind
    · exact absurd kind continued
    · exact absurd (.inl kind) message
    · exact absurd (.inr kind) message

section Header

variable {ws : WebSocket W} (l : Locals)

theorem needHeader_some {b0 : UInt8} (fragment : ws.headerFragment = some b0) (b1 : UInt8)
    (rest : Bytes) : needHeader env ws l (b1 :: rest) =
      (readHeader env { ws with headerFragment := none } l b0 b1).turn rest := by
  rw [needHeader.eq_def]
  simp only [fragment]

theorem needHeader_one (fragment : ws.headerFragment = none) (b0 : UInt8) :
    needHeader env ws l [b0] = .leave ({ ws with headerFragment := some b0 }, l) := by
  rw [needHeader.eq_def]
  simp only [fragment]

theorem needHeader_two (fragment : ws.headerFragment = none) (b0 b1 : UInt8) (rest : Bytes) :
    needHeader env ws l (b0 :: b1 :: rest) =
      (readHeader env { ws with headerFragment := none } l b0 b1).turn rest := by
  rw [needHeader.eq_def]
  simp only [fragment]

end Header

/-- The bytes of a header are gathered. -/
theorem collects_header {ws : WebSocket W} {l : Locals} (here : l.receiveState = .needHeader)
    (now : Consistent (ws, l)) : Collects env (ws, l) := by
  have quiet : Quiet ws := by
    rw [Consistent, here] at now
    exact now
  have turns : ∀ (ws : WebSocket W) data,
      turn env (ws, l) data = needHeader env ws l data := by
    intro ws data
    rw [turn, here]
  have taken : Quiet { ws with headerFragment := none } :=
    ⟨quiet.1, quiet.2, quiet.3, quiet.4, quiet.5, quiet.6⟩
  have begins := fun b0 b1 => readHeader_begins env l b0 b1 taken
  have ranks : ∀ (ws : WebSocket W) data, rank (ws, l) data = 3 * data.length := by
    intro ws data
    rw [rank, here]
    rfl
  have small : ∀ (t : Working W) data, rank t data ≤ 3 * data.length + 2 := by
    intro t data
    unfold rank
    split <;> omega
  -- What is known of the state a header leads to.
  have next_pass : ∀ {b0 b1 : UInt8} {t : Working W} {rest : Bytes},
      readHeader env { ws with headerFragment := none } l b0 b1 = .pass t →
        Valid t rest := by
    intro b0 b1 t rest same
    have begun := begins b0 b1
    rw [same] at begun
    exact ⟨fun header => absurd header begun.1, begun.2⟩
  have next_wait : ∀ {b0 b1 : UInt8} {t : Working W} {more : Bytes},
      readHeader env { ws with headerFragment := none } l b0 b1 = .wait t →
        more ≠ [] → Valid t more := by
    intro b0 b1 t more same nonempty
    have begun := begins b0 b1
    rw [same] at begun
    refine ⟨fun _ => nonempty, ?_⟩
    rw [Consistent, begun.1]
    exact begun.2
  cases fragment : ws.headerFragment with
  | some b0 =>
      refine ⟨1, fun _ => (ws, l),
        fun part => readHeader env { ws with headerFragment := none } l b0 (part.headD 0), ?_⟩
      constructor
      · intro chunk valid
        obtain ⟨b1, rest, rfl⟩ := List.exists_cons_of_ne_nil (valid.1 here)
        exact (turns ws _).trans (needHeader_some env l fragment b1 rest)
      · intro chunk more valid short
        exact absurd (List.length_pos_of_ne_nil (valid.1 here)) (by omega)
      · intro chunk more valid short
        exact absurd (List.length_pos_of_ne_nil (valid.1 here)) (by omega)
      · intro chunk t valid long same
        refine ⟨next_pass same, ?_⟩
        have bound := small t (chunk.drop 1)
        rw [ranks, List.length_drop] at *
        omega
      · intro chunk t valid long same
        refine ⟨fun more => next_wait same, ?_⟩
        have bound := small t (chunk.drop 1)
        rw [ranks, List.length_drop] at *
        omega
  | none =>
      refine ⟨2, fun chunk => ({ ws with headerFragment := some (chunk.headD 0) }, l),
        fun part => readHeader env { ws with headerFragment := none } l (part.headD 0)
          (part.tail.headD 0), ?_⟩
      constructor
      · intro chunk valid
        obtain ⟨b0, rest, rfl⟩ := List.exists_cons_of_ne_nil (valid.1 here)
        refine (turns ws _).trans ?_
        cases rest with
        | nil => exact needHeader_one env l fragment b0
        | cons b1 rest => exact needHeader_two env l fragment b0 b1 rest
      · intro chunk more valid short nonempty _
        obtain ⟨b0, rest, rfl⟩ := List.exists_cons_of_ne_nil (valid.1 here)
        obtain ⟨b1, more, rfl⟩ := List.exists_cons_of_ne_nil nonempty
        have single : rest = [] := by
          rw [List.length_cons] at short
          exact List.eq_nil_of_length_eq_zero (by omega)
        subst single
        refine (turns _ _).trans (Eq.trans ?_ (turns ws _).symm)
        refine Eq.trans ?_ (needHeader_two env l fragment b0 b1 more).symm
        have kept : ({ ws with headerFragment := some b0 } : WebSocket W).headerFragment =
          some b0 := rfl
        exact needHeader_some env l kept b1 more
      · intro chunk more valid short nonempty
        refine ⟨fun _ => nonempty, ?_⟩
        rw [Consistent, here]
        exact ⟨quiet.1, quiet.2, quiet.3, quiet.4, quiet.5, quiet.6⟩
      · intro chunk t valid long same
        refine ⟨next_pass same, ?_⟩
        have bound := small t (chunk.drop 2)
        rw [ranks, List.length_drop] at *
        omega
      · intro chunk t valid long same
        refine ⟨fun more => next_wait same, ?_⟩
        have bound := small t (chunk.drop 2)
        rw [ranks, List.length_drop] at *
        omega

/-- Every turn gathers its input. -/
theorem collects {s : Working W} {data : Bytes} (valid : Valid s data) : Collects env s := by
  obtain ⟨ws, l⟩ := s
  have now := valid.2
  cases here : l.receiveState with
  | needHeader => exact collects_header env here now
  | needMask =>
      apply collects_stop
      intro data _
      rw [turn, here]
      rfl
  | needBody => exact collects_body env here now
  | extendedPayloadLength16 =>
      refine collects_extended env 2 ?_ ?_ ?_ ?_ now
      · intro ws data
        rw [turn, here]
      · intro ws
        rw [Consistent, here]
      · intro ws data
        rw [rank, here]
      · rw [here]
        decide
  | extendedPayloadLength64 =>
      refine collects_extended env 8 ?_ ?_ ?_ ?_ now
      · intro ws data
        rw [turn, here]
      · intro ws
        rw [Consistent, here]
      · intro ws data
        rw [rank, here]
      · rw [here]
        decide
  | ping => exact collects_control env (pingTurn env) here now
  | pong => exact collects_control env (pongTurn env) here now
  | close => exact collects_close env here now
  | fail =>
      apply collects_stop
      intro data _
      rw [turn, here]
      rfl

/-- Only what is kept of a call decides its turns. -/
theorem turn_alike {s t : Working W} {data : Bytes} (validLeft : Valid s data)
    (validRight : Valid t data) (same : Receiver.save s = Receiver.save t) :
    Alike (dataLoop env) (turn env s data) (turn env t data) := by
  obtain ⟨ws, state, type, remain, final, fragmented, last⟩ := s
  obtain ⟨ws', state', type', remain', final', fragmented', last'⟩ := t
  simp only [Receiver.save, Receiver.mk.injEq, Progress.mk.injEq] at same
  obtain ⟨rfl, rfl, rfl, rfl⟩ := same
  cases state with
  | needHeader =>
      obtain ⟨b, rest, rfl⟩ := List.exists_cons_of_ne_nil (validLeft.1 rfl)
      change Alike _ (needHeader env ws _ _) (needHeader env ws _ _)
      cases fragment : ws.headerFragment with
      | some b0 =>
          rw [needHeader_some env _ fragment, needHeader_some env _ fragment]
          exact .finish _ _ _
      | none =>
          cases rest with
          | nil =>
              rw [needHeader_one env _ fragment, needHeader_one env _ fragment]
              exact .leave rfl
          | cons b1 rest =>
              rw [needHeader_two env _ fragment, needHeader_two env _ fragment]
              exact .finish _ _ _
  | needMask => exact .stop _
  | fail => exact .stop _
  | extendedPayloadLength16 =>
      change Alike _ (extendedPayloadLength env 2 ws _ _) (extendedPayloadLength env 2 ws _ _)
      unfold extendedPayloadLength
      dsimp only
      split_ifs <;> first | exact .stop _ | exact .leave rfl | exact .goOn _ rfl
  | extendedPayloadLength64 =>
      change Alike _ (extendedPayloadLength env 8 ws _ _) (extendedPayloadLength env 8 ws _ _)
      unfold extendedPayloadLength
      dsimp only
      split_ifs <;> first | exact .stop _ | exact .leave rfl | exact .goOn _ rfl
  | ping => exact receiveControl_alike env _ _ _ ws _ _ data ⟨rfl, rfl, rfl⟩
  | pong => exact receiveControl_alike env _ _ _ ws _ _ data ⟨rfl, rfl, rfl⟩
  | needBody =>
      have sameFinal : final = final' := validLeft.2.2.trans validRight.2.2.symm
      subst sameFinal
      change Alike _ (needBody env ws _ _) (needBody env ws _ _)
      unfold needBody
      dsimp only
      split_ifs <;> first | exact .stop _ | exact .leave rfl | exact .goOn _ rfl
  | close =>
      change Alike _ (receiveClose env ws _ _) (receiveClose env ws _ _)
      unfold receiveClose
      dsimp only
      split_ifs <;> first | exact .stop _ | exact .leave rfl

theorem valid_load {s : Working W} {data : Bytes} (valid : Valid s data) :
    Valid (Receiver.load (Receiver.save s)) data := by
  obtain ⟨ws, state, type, remain, final, fragmented, last⟩ := s
  refine ⟨valid.1, ?_⟩
  cases state with
  | needBody => exact ⟨valid.2.1, rfl⟩
  | extendedPayloadLength16 => exact ⟨valid.2.1, valid.2.2.1, rfl⟩
  | extendedPayloadLength64 => exact ⟨valid.2.1, valid.2.2.1, rfl⟩
  | needHeader => exact valid.2
  | needMask => exact valid.2
  | fail => exact valid.2
  | ping => exact valid.2
  | pong => exact valid.2
  | close => exact valid.2

/-- The loop is resumable where a close frame is whole. -/
theorem lawful : Lawful (dataLoop env) Valid Whole rank :=
  Lawful.of_gathers (fun _ => rfl)
    (fun more valid =>
      ⟨fun header => List.append_ne_nil_of_left_ne_nil (valid.1 header) more, valid.2⟩)
    valid_load
    (by
      intro s chunk
      change rank s chunk < 3 * chunk.length + 3
      unfold rank
      split <;> omega)
    (turn_alike env) (collects env)

end States

end Bunx.Websocket
