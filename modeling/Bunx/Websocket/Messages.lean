/-
Module: Bunx.Websocket.Messages
Purpose: The messages of a server and the frames they are sent in, and a receiver that is given
  whole frames: it hands over exactly the messages.
Trusted boundary: none
Main exports: Control, Content, SentFrame, SentFrame.encode, Message, Item, Item.frames,
  Item.events, encodeItems, Stage, Stage.next, Inflated, Stage.next_items
-/
import Bunx.Websocket.Receive

namespace Bunx.Websocket

variable {Z : Type}

/-! ### Messages and their frames -/

/-- A ping or a pong. -/
structure Control where
  isPing : Bool
  payload : Bytes
  small : payload.length ≤ 125

def Control.opcode (control : Control) : Opcode := if control.isPing then .ping else .pong

/-- What the C++ WebSocket is to be told of a ping or a pong. -/
def Control.event (control : Control) : Event := .bytes control.payload control.opcode

inductive DataKind where
  | text
  | binary
deriving DecidableEq, Repr

def DataKind.opcode : DataKind → Opcode
  | .text => .text
  | .binary => .binary

/-- What a data message says. -/
inductive Content where
  | text (string : String)
  | binary (data : Bytes)

namespace Content

def kind : Content → DataKind
  | text _ => .text
  | binary _ => .binary

/-- A text is sent in UTF-8. -/
def bytes : Content → Bytes
  | text string => string.toByteArray.data.toList
  | binary data => data

/-- What the C++ WebSocket is to be told: a text of ASCII characters as an 8-bit string. -/
def event : Content → Event
  | text string =>
      if string.toByteArray.data.toList.all (· < 0x80) then .text string.toByteArray.data.toList
      else .text16 string.toList
  | binary data => .bytes data .binary

end Content

/-- A frame a server sends, but for close frames. -/
inductive SentFrame where
  | control (c : Control)
  /-- The first frame of a data message. -/
  | first (kind : DataKind) (compressed isFinal : Bool) (payload : Bytes)
  | continuation (isFinal : Bool) (payload : Bytes)

/-- Frames of a server are not masked. -/
def SentFrame.encode : SentFrame → Bytes
  | control c => encodeFrame true false c.opcode none c.payload
  | first kind compressed isFinal payload =>
      encodeFrame isFinal compressed kind.opcode none payload
  | continuation isFinal payload => encodeFrame isFinal false .continued none payload

/-- A data message cut into fragments, with control frames between them. -/
structure Message where
  content : Content
  /-- What zlib made of the content, when the message is compressed. -/
  compressed : Option Bytes
  first : Bytes
  rest : List (List Control × Bytes)
  whole : first ++ (rest.map Prod.snd).flatten = compressed.getD content.bytes
  small : (compressed.getD content.bytes).length < maxReceiveMessageLength

/-- The fragments behind the first one. -/
def continuations : List (List Control × Bytes) → List SentFrame
  | [] => []
  | (controls, payload) :: rest =>
      controls.map .control ++ .continuation rest.isEmpty payload :: continuations rest

def Message.frames (message : Message) : List SentFrame :=
  .first message.content.kind message.compressed.isSome message.rest.isEmpty message.first ::
    continuations message.rest

/-- What a server sends. -/
inductive Item where
  | control (c : Control)
  | message (m : Message)

namespace Item

def frames : Item → List SentFrame
  | control c => [.control c]
  | message m => m.frames

/-- What arrives, in the order in which it is complete. -/
def events : Item → List Event
  | control c => [c.event]
  | message m => m.rest.flatMap (fun part => part.1.map Control.event) ++ [m.content.event]

end Item

/-- The stream of bytes. -/
def encodeItems (items : List Item) : Bytes :=
  (items.flatMap Item.frames).flatMap SentFrame.encode

/-! ### A receiver of whole frames -/

/-- The data message of which not all frames have come. -/
structure UnderWay where
  kind : DataKind
  compressed : Bool
  gathered : Bytes

/-- What is known between two frames; `zlib` is the state of the decompressor. -/
structure Stage (Z : Type) where
  underWay : Option UnderWay
  events : List Event
  zlib : Z

/-- What the C++ WebSocket is told of a data message, unless it is no text. -/
def dataEvent (kind : DataKind) (data : Bytes) : Option Event :=
  match kind with
  | .binary => some (.bytes data .binary)
  | .text =>
      match toUtf16Alloc data with
      | .error _ => none
      | .ok (some utf16) => some (.text16 utf16)
      | .ok none => some (.text data)

/-- The UTF-8 form of a string is read back. -/
theorem toUtf16Alloc_string (string : String) :
    toUtf16Alloc string.toByteArray.data.toList =
      if string.toByteArray.data.toList.all (· < 0x80) then .ok none
      else .ok (some string.toList) := by
  have decoded : String.fromUTF8? ⟨string.toByteArray.data.toList.toArray⟩ = some string :=
    dif_pos string.isValidUTF8
  unfold toUtf16Alloc
  rw [decoded]

theorem dataEvent_content (content : Content) :
    dataEvent content.kind content.bytes = some content.event := by
  cases content with
  | binary data => rfl
  | text string =>
      have converted := toUtf16Alloc_string string
      change (match toUtf16Alloc string.toByteArray.data.toList with
        | .error _ => none
        | .ok (some utf16) => some (.text16 utf16)
        | .ok none => some (.text string.toByteArray.data.toList)) = some (Content.event _)
      rw [converted, Content.event]
      by_cases ascii : string.toByteArray.data.toList.all (· < 0x80) = true
      · rw [if_pos ascii, if_pos ascii]
      · rw [if_neg ascii, if_neg ascii]

namespace Stage

variable (inflate : Z → Bytes → Except DecompressError Bytes × Z)

/-- Hand over a message that is complete. -/
def deliver (events : List Event) (zlib : Z) (u : UnderWay) : Option (Stage Z) :=
  if u.compressed then
    match inflate zlib u.gathered with
    | (.error _, _) => none
    | (.ok data, zlib) =>
        (dataEvent u.kind data).map fun event =>
          { underWay := none, events := events ++ [event], zlib := zlib }
  else
    (dataEvent u.kind u.gathered).map fun event =>
      { underWay := none, events := events ++ [event], zlib := zlib }

/-- A frame of the message has come. -/
def gather (stage : Stage Z) (u : UnderWay) (isFinal : Bool) : Option (Stage Z) :=
  if maxReceiveMessageLength < u.gathered.length then none
  else if isFinal then deliver inflate stage.events stage.zlib u
  else some { stage with underWay := some u }

/-- A frame, unless it is not accepted; `deflate` says that compression was negotiated. -/
def next (deflate : Bool) (stage : Stage Z) : SentFrame → Option (Stage Z)
  | .control c => some { stage with events := stage.events ++ [c.event] }
  | .first kind compressed isFinal payload =>
      match stage.underWay with
      | some _ => none
      | none =>
          if compressed && !deflate then none
          else gather inflate stage ⟨kind, compressed, payload⟩ isFinal
  | .continuation isFinal payload =>
      match stage.underWay with
      | none => none
      | some u => gather inflate stage { u with gathered := u.gathered ++ payload } isFinal

def nextAll (deflate : Bool) (stage : Stage Z) (frames : List SentFrame) : Option (Stage Z) :=
  frames.foldlM (next inflate deflate) stage

end Stage

/-! ### The messages arrive -/

section Arrival

variable (inflate : Z → Bytes → Except DecompressError Bytes × Z)

/-- The compressed payloads are what the decompressor makes the contents of, one after the
other. -/
def Inflated : Z → List Item → Prop
  | _, [] => True
  | zlib, .control _ :: items => Inflated zlib items
  | zlib, .message message :: items =>
      match message.compressed with
      | none => Inflated zlib items
      | some data =>
          (inflate zlib data).1 = .ok message.content.bytes ∧
            Inflated (inflate zlib data).2 items

/-- Compressed messages are sent only when compression was negotiated. -/
def Negotiated (deflate : Bool) (items : List Item) : Prop :=
  ∀ message, .message message ∈ items → message.compressed.isSome → deflate = true

namespace Stage

variable {inflate} (deflate : Bool)

theorem nextAll_append (stage : Stage Z) (frames more : List SentFrame) :
    nextAll inflate deflate stage (frames ++ more) =
      (nextAll inflate deflate stage frames).bind fun after =>
        nextAll inflate deflate after more :=
  List.foldlM_append

theorem nextAll_cons (stage : Stage Z) (frame : SentFrame) (frames : List SentFrame) :
    nextAll inflate deflate stage (frame :: frames) =
      (next inflate deflate stage frame).bind fun after =>
        nextAll inflate deflate after frames :=
  List.foldlM_cons

/-- Pings and pongs leave a message that is under way alone. -/
theorem nextAll_controls (controls : List Control) (stage : Stage Z) :
    nextAll inflate deflate stage (controls.map .control) =
      some { stage with events := stage.events ++ controls.map Control.event } := by
  induction controls generalizing stage with
  | nil =>
      rw [List.map_nil, List.map_nil, List.append_nil]
      rfl
  | cons control controls ih =>
      rw [List.map_cons, nextAll_cons, next, Option.bind_some, ih, List.map_cons,
        List.append_assoc, List.singleton_append]

theorem next_events {stage after : Stage Z} {frame : SentFrame}
    (accepted : next inflate deflate stage frame = some after) :
    stage.events <+: after.events := by
  have delivered : ∀ {events : List Event} {zlib : Z} {u : UnderWay} {after : Stage Z},
      deliver inflate events zlib u = some after → events <+: after.events := by
    intro events zlib u after delivered
    unfold deliver at delivered
    split at delivered
    · split at delivered
      · cases delivered
      · obtain ⟨event, _, rfl⟩ := Option.map_eq_some_iff.mp delivered
        exact List.prefix_append _ _
    · obtain ⟨event, _, rfl⟩ := Option.map_eq_some_iff.mp delivered
      exact List.prefix_append _ _
  have gathered : ∀ {u : UnderWay} {isFinal : Bool},
      gather inflate stage u isFinal = some after → stage.events <+: after.events := by
    intro u isFinal gathered
    unfold gather at gathered
    split at gathered
    · cases gathered
    · split at gathered
      · exact delivered gathered
      · cases gathered
        exact List.prefix_refl _
  unfold next at accepted
  split at accepted
  · cases accepted
    exact List.prefix_append _ _
  · split at accepted
    · cases accepted
    · split at accepted
      · cases accepted
      · exact gathered accepted
  · split at accepted
    · cases accepted
    · exact gathered accepted

/-- What has been told stays told. -/
theorem nextAll_events (frames : List SentFrame) {stage after : Stage Z}
    (accepted : nextAll inflate deflate stage frames = some after) :
    stage.events <+: after.events := by
  induction frames generalizing stage with
  | nil =>
      cases accepted
      exact List.prefix_refl _
  | cons frame frames ih =>
      rw [nextAll_cons] at accepted
      obtain ⟨middle, first, rest⟩ := Option.bind_eq_some_iff.mp accepted
      exact (next_events deflate first).trans (ih rest)

/-- The decompressor behind a message. -/
def zlibAfter (inflate : Z → Bytes → Except DecompressError Bytes × Z) (zlib : Z)
    (compressed : Option Bytes) : Z :=
  match compressed with
  | none => zlib
  | some data => (inflate zlib data).2

theorem deliver_message (message : Message) (events : List Event) {zlib : Z}
    (inflated : ∀ data, message.compressed = some data →
      (inflate zlib data).1 = .ok message.content.bytes) :
    deliver inflate events zlib ⟨message.content.kind, message.compressed.isSome,
        message.compressed.getD message.content.bytes⟩ =
      some { underWay := none, events := events ++ [message.content.event],
             zlib := zlibAfter inflate zlib message.compressed } := by
  unfold deliver zlibAfter
  cases compressed : message.compressed with
  | none =>
      dsimp only [Option.isSome, Option.getD]
      rw [if_neg Bool.false_ne_true, dataEvent_content]
      rfl
  | some data =>
      have content := inflated data compressed
      dsimp only [Option.isSome, Option.getD]
      rw [if_pos rfl]
      rcases inflating : inflate zlib data with ⟨result, after⟩
      rw [inflating] at content
      dsimp only at content
      subst content
      dsimp only
      rw [dataEvent_content]
      rfl

/-- The frames behind the first one complete the message. -/
theorem nextAll_continuations {stage : Stage Z} (kind : DataKind) (compressed : Bool)
    (data : Bytes) (small : data.length < maxReceiveMessageLength)
    (rest : List (List Control × Bytes)) (someRest : rest ≠ []) (gathered : Bytes)
    (whole : gathered ++ (rest.map Prod.snd).flatten = data)
    (under : stage.underWay = some ⟨kind, compressed, gathered⟩) :
    nextAll inflate deflate stage (continuations rest) =
      deliver inflate (stage.events ++ rest.flatMap fun part => part.1.map Control.event)
        stage.zlib ⟨kind, compressed, data⟩ := by
  induction rest generalizing stage gathered with
  | nil => exact absurd rfl someRest
  | cons part rest ih =>
      obtain ⟨controls, payload⟩ := part
      rw [List.map_cons, List.flatten_cons, ← List.append_assoc] at whole
      dsimp only at whole
      have fits : ¬maxReceiveMessageLength < (gathered ++ payload).length := by
        rw [← whole, List.length_append] at small
        omega
      rw [continuations, nextAll_append, nextAll_controls, Option.bind_some, nextAll_cons, next,
        under]
      dsimp only
      rw [gather, if_neg fits, List.flatMap_cons]
      cases rest with
      | nil =>
          rw [List.map_nil, List.flatten_nil, List.append_nil] at whole
          subst whole
          rw [List.flatMap_nil, List.append_nil]
          exact Option.bind_fun_some _
      | cons next rest =>
          rw [← List.append_assoc]
          exact ih (List.cons_ne_nil _ _) _ whole rfl

/-- The frames of a message hand it over, behind the control frames between them. -/
theorem nextAll_message (message : Message) {stage : Stage Z} (idle : stage.underWay = none)
    (negotiated : message.compressed.isSome → deflate = true)
    (inflated : ∀ data, message.compressed = some data →
      (inflate stage.zlib data).1 = .ok message.content.bytes) :
    nextAll inflate deflate stage message.frames =
      some { underWay := none, events := stage.events ++ (Item.message message).events,
             zlib := zlibAfter inflate stage.zlib message.compressed } := by
  have whole := message.whole
  have accepted : ¬(message.compressed.isSome && !deflate) = true := by
    intro refused
    rw [Bool.and_eq_true, Bool.not_eq_true'] at refused
    rw [negotiated refused.1] at refused
    exact Bool.noConfusion refused.2
  have fits : ¬maxReceiveMessageLength < message.first.length := by
    have small := message.small
    rw [← whole, List.length_append] at small
    omega
  rw [Message.frames, nextAll_cons, next, idle]
  dsimp only
  rw [if_neg accepted, gather, if_neg fits]
  cases rest : message.rest with
  | nil =>
      rw [rest, List.map_nil, List.flatten_nil, List.append_nil] at whole
      have delivered := deliver_message message stage.events inflated
      rw [← whole] at delivered
      rw [List.isEmpty_nil, if_pos rfl, delivered, Item.events, rest]
      rfl
  | cons part parts =>
      rw [List.isEmpty_cons, if_neg Bool.false_ne_true, Option.bind_some]
      rw [rest] at whole
      refine (nextAll_continuations deflate message.content.kind message.compressed.isSome _
        message.small (part :: parts) (List.cons_ne_nil _ _) message.first whole rfl).trans ?_
      refine (deliver_message message _ inflated).trans ?_
      rw [Item.events, rest, List.append_assoc]

/-- Exactly the messages are handed over, in the order in which they are complete. -/
theorem nextAll_items (items : List Item) {stage : Stage Z} (idle : stage.underWay = none)
    (negotiated : Negotiated deflate items) (inflated : Inflated inflate stage.zlib items) :
    ∃ after, nextAll inflate deflate stage (items.flatMap Item.frames) = some after ∧
      after.underWay = none ∧ after.events = stage.events ++ items.flatMap Item.events := by
  induction items generalizing stage with
  | nil => exact ⟨stage, rfl, idle, (List.append_nil _).symm⟩
  | cons item items ih =>
      have negotiatedRest : Negotiated deflate items :=
        fun message member => negotiated message (List.mem_cons_of_mem _ member)
      rw [List.flatMap_cons, List.flatMap_cons, nextAll_append, ← List.append_assoc]
      cases item with
      | control control =>
          have told : nextAll inflate deflate stage (Item.control control).frames =
            some { stage with events := stage.events ++ [control.event] } := rfl
          rw [told]
          exact ih idle negotiatedRest inflated
      | message message =>
          have contents : ∀ data, message.compressed = some data →
              (inflate stage.zlib data).1 = .ok message.content.bytes := by
            intro data compressed
            rw [Inflated, compressed] at inflated
            exact inflated.1
          have inflatedRest :
              Inflated inflate (zlibAfter inflate stage.zlib message.compressed) items := by
            unfold zlibAfter
            rw [Inflated] at inflated
            cases compressed : message.compressed with
            | none =>
                rw [compressed] at inflated
                exact inflated
            | some data =>
                rw [compressed] at inflated
                exact inflated.2
          have handed := nextAll_message deflate message idle
            (negotiated message List.mem_cons_self) contents
          rw [show (Item.message message).frames = message.frames from rfl, handed]
          exact ih rfl negotiatedRest inflatedRest

end Stage

end Arrival

end Bunx.Websocket
