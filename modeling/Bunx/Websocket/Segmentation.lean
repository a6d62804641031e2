/-
Module: Bunx.Websocket.Segmentation
Purpose: What a client makes of a stream does not depend on how it is cut into chunks, unless a
  cut leaves fewer than two bytes of the payload of a close frame in front of it.
Trusted boundary: none
Main exports: Reached, Reached.ready, observed, CloseWhole, handleChunks_flatten,
  segmentation_irrelevant, close_cut_reported
-/
import Bunx.Websocket.Resume

namespace Bunx.Websocket

open Lib ChunkLoop

variable {W : Type}

/-! ### The other calls leave a frame that is under way alone -/

section Settled

variable (env : World W) (ws : WebSocket W)

theorem copyFrame_settles (bytes : Copy) (contentByteLen : Nat) (opcode : Opcode) :
    Settles ws (copyFrame env ws bytes contentByteLen opcode).2 := by
  obtain ⟨mask, world, copied⟩ := copyFrame_cases env ws bytes contentByteLen opcode
  rw [copied]
  exact .of_same rfl (.same rfl)

theorem sendDataUncompressed_settles (bytes : Copy) (doWrite : Bool) (opcode : Opcode) :
    Settles ws (sendDataUncompressed env ws bytes doWrite opcode).1 := by
  have copied := copyFrame_settles env ws bytes bytes.len.2 opcode
  unfold sendDataUncompressed
  dsimp only
  split
  · exact copied.trans ((sendBufferOut_settles env _).before rfl (.same rfl))
  · exact copied.trans (.of_same rfl (.same rfl))

theorem sendData_settles (bytes : Copy) (doWrite : Bool) (opcode : Opcode) :
    Settles ws (sendData env ws bytes doWrite opcode).1 := by
  unfold sendData
  split
  · split
    · exact sendDataUncompressed_settles env ws bytes doWrite opcode
    · split
      · exact (sendDataUncompressed_settles env _ bytes doWrite opcode).before rfl (.same rfl)
      · dsimp only
        split
        · exact (sendBufferOut_settles env _).before rfl (.same rfl)
        · exact .of_same rfl (.same rfl)
  · exact sendDataUncompressed_settles env ws bytes doWrite opcode

/-- A frame that is laid out and sent without the buffer. -/
theorem sendInline_settles (bytes : Copy) (contentByteLen : Nat) (opcode : Opcode) :
    Settles ws (enqueueEncodedBytes env (copyFrame env ws bytes contentByteLen opcode).2
      (copyFrame env ws bytes contentByteLen opcode).1).1 :=
  (copyFrame_settles env ws bytes contentByteLen opcode).trans (enqueueEncodedBytes_settles env _ _)

theorem writeBytes_settles (slice : Bytes) (opcode : Opcode) :
    Settles ws (writeBytes env ws slice opcode) := by
  unfold writeBytes
  dsimp only
  split
  · exact sendInline_settles env ws _ _ opcode
  · exact sendData_settles env ws _ _ opcode

theorem writeString_settles (str : ZigString) (op : Nat) :
    Settles ws (writeString env ws str op) := by
  unfold writeString
  split
  · exact dispatchLast_settles ws _
  · cases str with
    | latin1 chars =>
        dsimp only
        split
        · exact sendInline_settles env ws _ _ _
        · exact sendData_settles env ws _ _ _
    | utf16 text =>
        dsimp only
        split
        · exact sendInline_settles env ws _ _ _
        · exact sendData_settles env ws _ _ _

theorem writeBinaryData_settles (slice : Bytes) (op : Nat) :
    Settles ws (writeBinaryData env ws slice op) := by
  unfold writeBinaryData
  split
  · exact dispatchLast_settles ws _
  · exact writeBytes_settles env ws slice _

theorem writeBlob_settles (blobValue : Option Bytes) (op : Nat) :
    Settles ws (writeBlob env ws blobValue op) := by
  unfold writeBlob
  split
  · exact dispatchLast_settles ws _
  · split
    · exact dispatchLast_settles ws _
    · exact sendData_settles env ws _ _ _
    · exact writeBytes_settles env ws _ _

theorem sendCloseWithBody_settles (code : Nat) (dispatchCode : Option Nat) (body : Bytes) :
    Settles ws (sendCloseWithBody env ws code dispatchCode body) := by
  obtain ⟨world, reads⟩ := shutdownRead_eq env ws
  unfold sendCloseWithBody
  rw [reads]
  dsimp only
  split
  · exact (dispatchLast_settles ws _).trans (clearData_settles env _)
  · split
    · exact (terminate_settles env _ _).before rfl (.same rfl)
    · have sent : ∀ frame, Settles ws
          (enqueueEncodedBytes env { ws with world := (env.entropySlice world).2 } frame).1 :=
        fun frame => (enqueueEncodedBytes_settles env _ frame).before rfl (.same rfl)
      split
      · exact ((sent _).trans (clearData_settles env _)).trans (dispatchLast_settles _ _)
      · exact sent _

theorem handleWritable_settles : Settles ws (handleWritable env ws) := by
  unfold handleWritable
  split
  · exact .of_same rfl (.same rfl)
  · split
    · exact .of_same rfl (.same rfl)
    · exact sendBufferOut_settles env ws

end Settled

/-! ### The states a client reaches -/

/-- A frame under way is still known after the client has written, or it is forgotten. -/
theorem Consistent.settles {ws after : WebSocket W} {l : Locals} (consistent : Consistent (ws, l))
    (settles : Settles ws after) (current : l.isFinal = ws.receivingIsFinal) :
    Consistent (after, { l with isFinal := after.receivingIsFinal }) := by
  have length := settles.payloadLength
  obtain ⟨state, type, remain, final, fragmented, last⟩ := l
  cases state with
  | needHeader => exact Quiet.settles consistent settles
  | needMask => exact Quiet.settles consistent settles
  | fail => exact Quiet.settles consistent settles
  | needBody => exact ⟨consistent.1.settles settles, rfl⟩
  | extendedPayloadLength16 =>
      refine ⟨consistent.1.settles ⟨rfl, settles.isFinal, settles.closeReceived,
        settles.control, settles.gone⟩, ?_, rfl⟩
      rw [length]
      exact consistent.2.1
  | extendedPayloadLength64 =>
      refine ⟨consistent.1.settles ⟨rfl, settles.isFinal, settles.closeReceived,
        settles.control, settles.gone⟩, ?_, rfl⟩
      rw [length]
      exact consistent.2.1
  | ping =>
      refine ⟨consistent.1.settles settles.clearPing, fun received => ?_⟩
      rcases settles.control with kept | cleared
      · rw [kept.2.2.2.1]
        exact consistent.2 (kept.1.symm.trans received)
      · exact absurd (cleared.1.symm.trans received) Bool.false_ne_true
  | pong =>
      refine ⟨consistent.1.settles settles.clearPong, fun received => ?_⟩
      rcases settles.control with kept | cleared
      · rw [kept.2.2.2.1]
        exact consistent.2 (kept.2.1.symm.trans received)
      · exact absurd (cleared.2.1.symm.trans received) Bool.false_ne_true
  | close =>
      refine ⟨consistent.1.settles settles.clearClose, fun buffering => ?_⟩
      rcases settles.control with kept | cleared
      · rw [kept.2.2.2.1]
        exact consistent.2 (kept.2.2.1.symm.trans buffering)
      · exact absurd (cleared.2.2.1.symm.trans buffering) Bool.false_ne_true

/-- A client whose connection is closed, or that can take the next chunk. -/
def Receiver.Sound (r : Receiver W) : Prop :=
  r.ws.closeReceived = true ∨ Consistent r.load

section Runs

variable (env : World W)

/-- The states between calls. A pong is only sent within a call that reads. -/
inductive Reached : Receiver W → Prop where
  | start (world : W) (deflate proxyTunnel : Bool) : Reached (.start world deflate proxyTunnel)
  | read {r after : Receiver W} {data : Bytes} (reached : Reached r) (nonempty : data ≠ [])
      (handled : handleData env r data = some after) : Reached after
  | write {r : Receiver W} (reached : Reached r) (operation : Operation)
      (notPong : ∀ payload accepted, operation ≠ .sendPong payload accepted) :
      Reached { r with ws := step env r.ws operation }

variable {env}

theorem Consistent.ready {r : Receiver W} (consistent : Consistent r.load) :
    Lawful.Ready (dataLoop env) Valid r :=
  fun _ nonempty => ⟨fun _ => nonempty, consistent⟩

/-- What is kept of a chunk is consistent. -/
theorem consistent_handled {r after : Receiver W} {data : Bytes} (consistent : Consistent r.load)
    (nonempty : data ≠ []) (handled : (dataLoop env).handle r data = some (.left after)) :
    Consistent after.load :=
  ((lawful env).handle_ready consistent.ready nonempty handled [0] (by simp)).2

/-- A consistent client is connected. -/
theorem Consistent.connected {ws : WebSocket W} {l : Locals} (consistent : Consistent (ws, l)) :
    ws.closeReceived = false := by
  obtain ⟨state, type, remain, final, fragmented, last⟩ := l
  cases state with
  | needHeader => exact Quiet.closeReceived consistent
  | needMask => exact Quiet.closeReceived consistent
  | fail => exact Quiet.closeReceived consistent
  | needBody => exact consistent.1.closeReceived
  | extendedPayloadLength16 => exact consistent.1.closeReceived
  | extendedPayloadLength64 => exact consistent.1.closeReceived
  | ping => exact consistent.1.closeReceived
  | pong => exact consistent.1.closeReceived
  | close => exact consistent.1.closeReceived

theorem Reached.sound {r : Receiver W} (reached : Reached env r) : r.Sound := by
  induction reached with
  | start world deflate proxyTunnel => exact .inr ⟨rfl, rfl, rfl, rfl, rfl, rfl⟩
  | @read r after data _ nonempty handled sound =>
      unfold handleData at handled
      split at handled
      · cases handled
        exact sound
      · rename_i open'
        have consistent := sound.resolve_left open'
        split at handled
        · cases handled
        · rename_i kept left
          cases handled
          exact .inr (consistent_handled consistent nonempty left)
        · cases handled
          exact .inl rfl
  | @write r _ operation notPong sound =>
      have settles : Settles r.ws (step env r.ws operation) := by
        cases operation with
        | writeString str op => exact writeString_settles env r.ws str op
        | writeBinaryData slice op => exact writeBinaryData_settles env r.ws slice op
        | writeBlob blobValue op => exact writeBlob_settles env r.ws blobValue op
        | sendPong payload accepted => exact absurd rfl (notPong payload accepted)
        | sendCloseWithBody code dispatchCode body =>
            exact sendCloseWithBody_settles env r.ws code dispatchCode body
        | writable => exact handleWritable_settles env r.ws
      rcases sound with closed | consistent
      · exact .inl (settles.closeReceived.trans closed)
      · exact .inr (consistent.settles settles rfl)

/-! ### Cutting a stream -/

/-- What the other side and the C++ WebSocket see of a client. -/
def observed (r : Receiver W) : List Event × List Bytes × Bytes :=
  (r.ws.events, r.ws.frames, r.ws.wire)

variable (env)

/-- No cut is made in a close frame of whose payload fewer than two bytes are there. -/
def CutsWhole : Receiver W → List Bytes → Prop
  | _, [] => True
  | r, chunk :: chunks => ∀ after, handleData env r chunk = some after →
      (after.ws.closeReceived = false → chunks ≠ [] → Whole after) ∧ CutsWhole after chunks

/-- The client of an outcome. -/
def outcomeWs : Outcome (Receiver W) (WebSocket W) → WebSocket W
  | .left kept => kept.ws
  | .stopped ws => { ws with closeReceived := true }

variable {env}

theorem handleChunks_cons (r : Receiver W) (chunk : Bytes) (chunks : List Bytes) :
    handleChunks env r (chunk :: chunks) =
      (handleData env r chunk).bind fun after => handleChunks env after chunks :=
  rfl

/-- Behind a close nothing is read. -/
theorem handleChunks_closed {r : Receiver W} (closed : r.ws.closeReceived = true)
    (chunks : List Bytes) : handleChunks env r chunks = some r := by
  induction chunks with
  | nil => rfl
  | cons chunk chunks ih =>
      have ignored : handleData env r chunk = some r := if_pos closed
      rw [handleChunks_cons, ignored]
      exact ih

theorem handleData_consistent {r : Receiver W} (consistent : Consistent r.load) (data : Bytes) :
    handleData env r data =
      match (dataLoop env).handle r data with
      | none => none
      | some (.left kept) => some kept
      | some (.stopped ws) =>
          some { ws := { ws with closeReceived := true }, progress := r.progress } := by
  have connected : ¬r.ws.closeReceived = true := by
    rw [show r.ws.closeReceived = false from consistent.connected]
    exact Bool.false_ne_true
  exact if_neg connected

theorem handleData_outcome {r : Receiver W} {data : Bytes}
    {outcome : Outcome (Receiver W) (WebSocket W)} (consistent : Consistent r.load)
    (handled : (dataLoop env).handle r data = some outcome) :
    (handleData env r data).map Receiver.ws = some (outcomeWs outcome) := by
  rw [handleData_consistent consistent, handled]
  cases outcome with
  | left kept => rfl
  | stopped ws => rfl

/-- The chunks are fed to the loop. -/
theorem handleChunks_feed (chunks : List Bytes) {r : Receiver W} (consistent : Consistent r.load)
    (nonempty : ∀ chunk ∈ chunks, chunk ≠ []) :
    (handleChunks env r chunks).map Receiver.ws =
      ((dataLoop env).feed (.left r) chunks).map outcomeWs := by
  induction chunks generalizing r with
  | nil => rfl
  | cons chunk chunks ih =>
      have someChunk := nonempty chunk List.mem_cons_self
      have someRest := fun c member => nonempty c (List.mem_cons_of_mem _ member)
      rw [handleChunks_cons, handleData_consistent consistent, ChunkLoop.feed]
      cases handled : (dataLoop env).handle r chunk with
      | none => rfl
      | some outcome =>
          cases outcome with
          | left kept =>
              exact ih (consistent_handled consistent someChunk handled) someRest
          | stopped ws =>
              dsimp only
              rw [Option.bind_some, handleChunks_closed rfl]
              cases chunks with
              | nil => rfl
              | cons next chunks => rfl

/-- Whole cuts are guarded ones. -/
theorem guarded_of_cutsWhole (chunks : List Bytes) {r : Receiver W} {chunk : Bytes}
    (consistent : Consistent r.load) (someChunk : chunk ≠ [])
    (nonempty : ∀ chunk ∈ chunks, chunk ≠ []) (whole : CutsWhole env r (chunk :: chunks))
    {outcome : Outcome (Receiver W) (WebSocket W)}
    (handled : (dataLoop env).handle r chunk = some outcome) :
    (dataLoop env).Guarded Whole outcome chunks := by
  induction chunks generalizing r chunk outcome with
  | nil =>
      cases outcome with
      | left kept => trivial
      | stopped ws => trivial
  | cons next chunks ih =>
      cases outcome with
      | stopped ws => trivial
      | left kept =>
          have after := consistent_handled consistent someChunk handled
          have stored : handleData env r chunk = some kept := by
            rw [handleData_consistent consistent, handled]
          obtain ⟨now, later⟩ := whole kept stored
          refine ⟨now after.connected (List.cons_ne_nil _ _), fun outcome more => ?_⟩
          exact ih after (nonempty next List.mem_cons_self)
            (fun c member => nonempty c (List.mem_cons_of_mem _ member)) later more

/-- Chunks lead to what they lead to in one piece. -/
theorem handleChunks_flatten {r : Receiver W} (sound : r.Sound) (chunks : List Bytes)
    (nonempty : ∀ chunk ∈ chunks, chunk ≠ []) (whole : CutsWhole env r chunks) :
    ∃ after, handleChunks env r chunks = some after ∧
      (chunks ≠ [] → (handleData env r chunks.flatten).map Receiver.ws = some after.ws) := by
  rcases sound with closed | consistent
  · refine ⟨r, handleChunks_closed closed chunks, fun _ => ?_⟩
    have ignored : handleData env r chunks.flatten = some r := if_pos closed
    rw [ignored]
    rfl
  · cases chunks with
    | nil => exact ⟨r, rfl, fun none => absurd rfl none⟩
    | cons chunk chunks =>
        have someChunk := nonempty chunk List.mem_cons_self
        have someRest := fun c member => nonempty c (List.mem_cons_of_mem _ member)
        have someAll : (chunk :: chunks).flatten ≠ [] := by
          rw [List.flatten_cons]
          exact List.append_ne_nil_of_left_ne_nil someChunk _
        have fed : (handleChunks env r (chunk :: chunks)).map Receiver.ws =
            ((dataLoop env).feed (.left r) (chunk :: chunks)).map outcomeWs :=
          handleChunks_feed _ consistent nonempty
        have cut := (lawful env).feed_flatten chunks consistent.ready someChunk someRest
          fun _ handled =>
            guarded_of_cutsWhole chunks consistent someChunk someRest whole handled
        obtain ⟨outcome, handled⟩ := (lawful env).handle_some consistent.ready someAll
        have same := cut.trans handled
        rw [same] at fed
        cases reading : handleChunks env r (chunk :: chunks) with
        | none =>
            rw [reading] at fed
            cases fed
        | some after =>
            rw [reading] at fed
            exact ⟨after, rfl, fun _ => (handleData_outcome consistent handled).trans fed.symm⟩

/-- However a stream is cut, the same is observed. -/
theorem segmentation_irrelevant {r : Receiver W} (reached : Reached env r)
    (chunks₁ chunks₂ : List Bytes) (same : chunks₁.flatten = chunks₂.flatten)
    (nonempty₁ : ∀ chunk ∈ chunks₁, chunk ≠ []) (nonempty₂ : ∀ chunk ∈ chunks₂, chunk ≠ [])
    (whole₁ : CutsWhole env r chunks₁) (whole₂ : CutsWhole env r chunks₂) :
    ∃ after₁ after₂, handleChunks env r chunks₁ = some after₁ ∧
      handleChunks env r chunks₂ = some after₂ ∧ observed after₁ = observed after₂ := by
  obtain ⟨after₁, handled₁, joined₁⟩ :=
    handleChunks_flatten reached.sound chunks₁ nonempty₁ whole₁
  obtain ⟨after₂, handled₂, joined₂⟩ :=
    handleChunks_flatten reached.sound chunks₂ nonempty₂ whole₂
  refine ⟨after₁, after₂, handled₁, handled₂, ?_⟩
  have none_iff : chunks₁ = [] ↔ chunks₂ = [] := by
    constructor
    · intro none
      rw [none, List.flatten_nil, eq_comm, List.flatten_eq_nil_iff] at same
      exact List.eq_nil_iff_forall_not_mem.mpr fun c member => nonempty₂ c member (same c member)
    · intro none
      rw [none, List.flatten_nil, List.flatten_eq_nil_iff] at same
      exact List.eq_nil_iff_forall_not_mem.mpr fun c member => nonempty₁ c member (same c member)
  by_cases none : chunks₁ = []
  · have none' := none_iff.mp none
    subst none none'
    cases handled₁
    cases handled₂
    rfl
  · have first := joined₁ none
    have second := joined₂ fun none' => none (none_iff.mpr none')
    rw [same, second] at first
    unfold observed
    rw [Option.some.inj first]

end Runs

/-- A text and a ping, cut in the header of the text and in the payload of the ping. -/
theorem segmentation_irrelevant_sample :
    ∃ after₁ after₂,
      handleChunks (scriptedWorld false) (.start [] false false)
          [[0x81], [2, 104, 105, 0x89, 2, 7], [8]] = some after₁ ∧
        handleChunks (scriptedWorld false) (.start [] false false)
          [[0x81, 2, 104, 105, 0x89, 2, 7, 8]] = some after₂ ∧
        observed after₁ = observed after₂ := by
  refine segmentation_irrelevant (.start [] false false) _ _ rfl
    (by decide) (by decide) ?_ ?_
  · refine fun _ first => ⟨?_, fun _ second => ⟨?_, fun _ third => ⟨?_, trivial⟩⟩⟩
    · cases first
      exact fun _ _ close => by cases close
    · cases first
      cases second
      exact fun _ _ close => by cases close
    · exact fun _ none => absurd rfl none
  · exact fun _ _ => ⟨fun _ none => absurd rfl none, trivial⟩

/-- A close frame that is cut behind its header is reported without its code. -/
theorem close_cut_reported :
    ((handleChunks (scriptedWorld false) (.start [] false false)
        [[0x88, 2, 0x03, 0xE8]]).map fun r => r.ws.events) = some [.close 1000 []] ∧
      ((handleChunks (scriptedWorld false) (.start [] false false)
        [[0x88, 2], [0x03, 0xE8]]).map fun r => r.ws.events) = some [.close 1005 []] := by
  decide

end Bunx.Websocket
