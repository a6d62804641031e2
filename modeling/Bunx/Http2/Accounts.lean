/-
Module: Bunx.Http2.Accounts
Purpose: The books of a session: every request that it has taken waits, is on a stream or was
  answered, and each as often as it was taken.
Trusted boundary: none
Main exports: balance, Even, parseFrames_follows, Good, enqueue_good, removeStream_good
-/
import Bunx.Http2.QuietSending

namespace Bunx.Http2

open Lib
open Websocket (toBeBytes)

variable {hp : Hpack}

def Event.adopts (n : Nat) : Event → Bool
  | .adopted client => client == n
  | _ => false

def Event.answers (n : Nat) : Event → Bool
  | .answered client _ => client == n
  | _ => false

/-- The stream is for the request with the number `n`. -/
def Stream.carries (n : Nat) (stream : Stream) : Bool :=
  stream.client.map Client.asyncHttpId == some n

theorem countP_dealings {p : Event → Bool} (log : List Event)
    (noted : ∀ event, p event = true → dealings [event] = [event]) :
    (dealings log).countP p = log.countP p := by
  rw [dealings, List.countP_filter]
  refine List.countP_congr fun event _ => ?_
  cases isNoted : p event with
  | false => simp
  | true =>
      have kept := noted event isNoted
      cases event with
      | adopted client => simp
      | answered client answer => simp
      | _ => cases kept

theorem countP_adopts (log : List Event) (n : Nat) :
    (dealings log).countP (Event.adopts n) = log.countP (Event.adopts n) :=
  countP_dealings log fun event adopts => by
    cases event with
    | adopted client => rfl
    | _ => cases adopts

theorem countP_answers (log : List Event) (n : Nat) :
    (dealings log).countP (Event.answers n) = log.countP (Event.answers n) :=
  countP_dealings log fun event answers => by
    cases event with
    | answered client answer => rfl
    | _ => cases answers

namespace Session

def adoptions (s : Session hp) (n : Nat) : Nat := s.log.countP (Event.adopts n)

def answers (s : Session hp) (n : Nat) : Nat := s.log.countP (Event.answers n)

def waiting (s : Session hp) (n : Nat) : Nat :=
  s.pendingAttach.countP fun client => client.asyncHttpId == n

def carried (s : Session hp) (n : Nat) : Nat :=
  s.streams.countP fun entry => entry.2.carries n

/-- What is missing in the books. -/
def balance (s : Session hp) (n : Nat) : Int :=
  s.adoptions n - s.answers n - s.waiting n - s.carried n

/-- The books of two sessions are the same. -/
structure Even (s t : Session hp) : Prop where
  pending : t.pendingAttach = s.pendingAttach
  dealings : dealings t.log = dealings s.log
  clients : (t.streams.map fun entry => (entry.1, entry.2.client.map Client.asyncHttpId)) =
    s.streams.map fun entry => (entry.1, entry.2.client.map Client.asyncHttpId)

namespace Even

variable {s t u : Session hp}

theorem refl (s : Session hp) : Even s s := ⟨rfl, rfl, rfl⟩

theorem trans (first : Even s t) (second : Even t u) : Even s u :=
  ⟨second.pending.trans first.pending, second.dealings.trans first.dealings,
    second.clients.trans first.clients⟩

theorem balance (even : Even s t) (n : Nat) : t.balance n = s.balance n := by
  have adoptions : t.adoptions n = s.adoptions n := by
    rw [Session.adoptions, ← countP_adopts, even.dealings, countP_adopts, Session.adoptions]
  have answers : t.answers n = s.answers n := by
    rw [Session.answers, ← countP_answers, even.dealings, countP_answers, Session.answers]
  have carried : t.carried n = s.carried n := by
    have same := congrArg (List.countP fun e : Nat × Option Nat => e.2 == some n) even.clients
    rwa [List.countP_map, List.countP_map] at same
  rw [Session.balance, Session.balance, adoptions, answers, carried, Session.waiting,
    Session.waiting, even.pending]

end Even

theorem Quiet.even {s t : Session hp} (quiet : Quiet s t) : Even s t where
  pending := quiet.pending
  dealings := quiet.dealings
  clients := by
    have same := congrArg (List.map fun e => (e.1, e.2.2.2)) quiet.parts
    rw [Http2.parts, Http2.parts, List.map_map, List.map_map] at same
    exact same

/-! ### Frames -/

/-- A stream is written back with its client. -/
theorem putStream_even {s : Session hp} {stream before : Stream}
    (found : s.streams.get stream.id = some before)
    (same : before.client.map Client.asyncHttpId = stream.client.map Client.asyncHttpId) :
    Even s (s.putStream stream) := by
  have sameClient : (s.streams.get stream.id).map (fun e => e.client.map Client.asyncHttpId) =
      some (stream.client.map Client.asyncHttpId) := by
    rw [found]
    exact congrArg some same
  have kept := OrderedMap.mapValues_put sameClient
  exact ⟨rfl, rfl, kept⟩

theorem endHeaders_even {s : Session hp} {stream before : Stream}
    (found : s.streams.get stream.id = some before)
    (same : before.client.map Client.asyncHttpId = stream.client.map Client.asyncHttpId) :
    Even s (s.endHeaders stream) := by
  have ends (ended : Stream) (sameEnded : ended.part = stream.part) :
      Even s ((s.decodeHeaderBlock ended).1.putStream (s.decodeHeaderBlock ended).2) := by
    obtain ⟨after, quiet, sameAfter, -⟩ := decodeHeaderBlock_feeds s ended
    have decoded : Even s ({ s with decoder := after } : Session hp) := ⟨rfl, rfl, rfl⟩
    obtain ⟨other, foundNext, sameOther⟩ := quiet.get_some found
    have sameId : (s.decodeHeaderBlock ended).2.id = stream.id :=
      (congrArg Prod.fst sameAfter).trans (congrArg Prod.fst sameEnded)
    rw [← sameId] at foundNext
    have client {a b : Stream} (parts : a.part = b.part) :
        a.client.map Client.asyncHttpId = b.client.map Client.asyncHttpId :=
      congrArg (fun part => part.2.2) parts
    exact (decoded.trans quiet.even).trans (putStream_even foundNext
      (((client sameOther).trans same).trans ((client sameEnded).symm.trans (client sameAfter).symm)))
  unfold endHeaders
  simp only
  split
  · exact ends _ rfl
  · exact ends _ rfl

theorem decodeDiscardOrphan_even (s : Session hp) : Even s s.decodeDiscardOrphan := by
  unfold decodeDiscardOrphan
  simp only
  split
  · exact ⟨rfl, rfl, rfl⟩
  · exact ⟨rfl, rfl, rfl⟩

theorem dispatchHeaders_even {s : Session hp} (kept : s.Kept) (frame : Frame) :
    Even s (s.dispatchHeaders frame) := by
  unfold dispatchHeaders
  cases found : s.streams.get frame.streamIdentifier with
  | none =>
      simp only
      split
      · exact ⟨rfl, rfl, rfl⟩
      · split
        · exact ⟨rfl, rfl, rfl⟩
        · next fragment _ =>
          have next : Even s ({ s with orphanHeaderBlock := fragment } : Session hp) :=
            ⟨rfl, rfl, rfl⟩
          split
          · exact next.trans (decodeDiscardOrphan_even _)
          · exact ⟨rfl, rfl, rfl⟩
  | some stream =>
      have foundNext : s.streams.get stream.id = some stream := by
        rw [(kept.named _ _ found).1]
        exact found
      have next : Even s ({ s with streamProgressed := true } : Session hp) := ⟨rfl, rfl, rfl⟩
      simp only
      split
      · exact ⟨rfl, rfl, rfl⟩
      · split
        · exact next.trans (@endHeaders_even hp _ _ stream foundNext rfl)
        · next fragment _ _ =>
          have put := @putStream_even hp { s with streamProgressed := true } { stream with
            headerBlock := fragment
            headersEndStream := hasFlag frame.flags END_STREAM } stream foundNext rfl
          exact next.trans ⟨rfl, rfl, put.clients⟩

theorem dispatchContinuation_even {s : Session hp} (kept : s.Kept) (frame : Frame) :
    Even s (s.dispatchContinuation frame) := by
  unfold dispatchContinuation
  split
  · exact ⟨rfl, rfl, rfl⟩
  · have next : Even s ({ s with expectingContinuation := 0 } : Session hp) := ⟨rfl, rfl, rfl⟩
    cases found : s.streams.get s.expectingContinuation with
    | none =>
        simp only
        split
        · exact ⟨rfl, rfl, rfl⟩
        · split
          · have even := decodeDiscardOrphan_even ({ s with
              orphanHeaderBlock := s.orphanHeaderBlock ++ frame.payload
              expectingContinuation := 0 } : Session hp)
            exact next.trans ⟨even.pending, even.dealings, even.clients⟩
          · exact ⟨rfl, rfl, rfl⟩
    | some stream =>
        have foundNext : s.streams.get stream.id = some stream := by
          rw [(kept.named _ _ found).1]
          exact found
        simp only
        split
        · exact ⟨rfl, rfl, rfl⟩
        · split
          · exact next.trans (@endHeaders_even hp _ _ stream foundNext rfl)
          · exact putStream_even foundNext rfl

theorem dispatchFrame_even {s t : Session hp} {frame : Frame} (kept : s.Kept)
    (goes : (s.record (.received frame)).dispatchFrame frame = some t) : Even s t := by
  have keptNext : (s.record (.received frame)).Kept :=
    ⟨kept.distinct, kept.named, kept.expecting⟩
  have recorded : Even s (s.record (.received frame)) := by
    refine ⟨rfl, ?_, rfl⟩
    show dealings (s.log ++ [.received frame]) = _
    rw [dealings, List.filter_append]
    exact List.append_nil _
  refine recorded.trans ?_
  generalize s.record (.received frame) = next at keptNext goes
  unfold dispatchFrame at goes
  simp only at goes
  split at goes
  · cases goes
    exact ⟨rfl, rfl, rfl⟩
  · split at goes
    · cases goes
      exact ⟨rfl, rfl, rfl⟩
    · split at goes
      · exact (dispatchSettings_quiet goes).even
      · exact (dispatchWindowUpdate_quiet keptNext goes).even
      · cases goes
        exact (dispatchPing_quiet next frame).even
      · cases goes
        exact (dispatchPriority_quiet next frame).even
      · cases goes
        exact dispatchHeaders_even keptNext frame
      · cases goes
        exact dispatchContinuation_even keptNext frame
      · cases goes
        exact (dispatchData_quiet keptNext frame).even
      · cases goes
        exact (dispatchRstStream_quiet keptNext frame).even
      · cases goes
        exact (dispatchGoaway_quiet next frame).even
      · cases goes
        exact ⟨rfl, rfl, rfl⟩
      · cases goes
        exact .refl _

/-- The frames in some bytes, one after the other: the decoder is in step behind them, and nothing
changes in the books. -/
theorem parseFrames_follows {s t : Session hp} {bytes rest : Bytes} (alive : s.fatalError = none)
    (inStep : s.InStep) (read : s.parseFrames bytes = some (t, rest)) : t.Follows ∧ Even s t := by
  induction bytes using splitFrames.induct generalizing s with
  | case1 bytes frame tail next ih =>
      rw [parseFrames_of_frame next] at read
      obtain ⟨u, dispatched, read⟩ := Option.bind_eq_some_iff.mp read
      have follows := dispatchFrame_follows alive inStep dispatched
      have even := dispatchFrame_even inStep.kept dispatched
      cases isFailed : u.fatalError with
      | some error =>
          rw [isFailed] at read
          cases read
          exact ⟨follows, even⟩
      | none =>
          rw [isFailed] at read
          obtain ⟨followsRest, evenRest⟩ := ih isFailed (follows isFailed) read
          exact ⟨followsRest, even.trans evenRest⟩
  | case2 bytes next =>
      rw [parseFrames_of_incomplete next] at read
      cases read
      exact ⟨fun _ => inStep, .refl _⟩
  | case3 bytes next =>
      rw [parseFrames_of_tooLarge next] at read
      cases read
      exact ⟨follows_fail s _, rfl, rfl, rfl⟩

/-! ### Good sessions -/

/-- One for the request with the number `n`. -/
def one (client : Client) (n : Nat) : Int := if client.asyncHttpId = n then 1 else 0

/-- The decoder is in step, and the books are right but for what is owed. -/
structure Good (s : Session hp) (owed : Nat → Int) : Prop where
  follows : s.Follows
  balance : ∀ n, s.balance n = owed n

namespace Good

variable {s t : Session hp} {owed : Nat → Int}

theorem quiet (good : Good s owed) (quiet : Quiet s t) : Good t owed :=
  ⟨quiet.aside.follows good.follows, fun n => (quiet.even.balance n).trans (good.balance n)⟩

end Good

theorem record_aside {s : Session hp} {event : Event} (isDealing : receivedFrames [event] = []) :
    Aside s (s.record event) :=
  { (Quiet.refl s).aside with
    received := by
      show receivedFrames (s.log ++ [event]) = _
      rw [receivedFrames, List.filterMap_append]
      exact (congrArg (_ ++ ·) isDealing).trans (List.append_nil _) }

theorem answer_good {s : Session hp} {owed : Nat → Int} (good : Good s owed) (client : Client)
    (answer : Answer) : Good (s.answer client answer) fun n => owed n - one client n := by
  refine ⟨(record_aside rfl).follows good.follows, fun n => ?_⟩
  have before := good.balance n
  have adoptions : (s.answer client answer).adoptions n = s.adoptions n := by
    simp [Session.answer, record, Session.adoptions, Event.adopts]
  have answers : ((s.answer client answer).answers n : Int) = s.answers n + one client n := by
    simp only [Session.answer, record, Session.answers, List.countP_append, List.countP_singleton,
      Event.answers, beq_iff_eq, one]
    split
    · rfl
    · rfl
  have same : (s.answer client answer).balance n =
      (s.answer client answer).adoptions n - (s.answer client answer).answers n -
        s.waiting n - s.carried n := rfl
  rw [same, adoptions, answers]
  rw [Session.balance] at before
  omega

theorem adopted_good {s : Session hp} {owed : Nat → Int} (good : Good s owed)
    (client : Client) :
    Good (s.record (.adopted client.asyncHttpId)) fun n => owed n + one client n := by
  refine ⟨(record_aside rfl).follows good.follows, fun n => ?_⟩
  have before := good.balance n
  have adoptions : ((s.record (.adopted client.asyncHttpId)).adoptions n : Int) =
      s.adoptions n + one client n := by
    simp only [record, Session.adoptions, List.countP_append, List.countP_singleton,
      Event.adopts, beq_iff_eq, one]
    split
    · rfl
    · rfl
  have answers : (s.record (.adopted client.asyncHttpId)).answers n = s.answers n := by
    simp [record, Session.answers, Event.answers]
  have same : (s.record (.adopted client.asyncHttpId)).balance n =
      (s.record (.adopted client.asyncHttpId)).adoptions n -
        (s.record (.adopted client.asyncHttpId)).answers n - s.waiting n - s.carried n := rfl
  rw [same, adoptions, answers]
  rw [Session.balance] at before
  omega

/-- A request is parked. -/
theorem enqueue_good {s : Session hp} {owed : Nat → Int} (good : Good s owed)
    (client : Client) : Good (s.enqueue client) owed := by
  have adopted := adopted_good good client
  refine ⟨Aside.follows (s := s.record (.adopted client.asyncHttpId))
    { (Quiet.refl _).aside with } adopted.follows, fun n => ?_⟩
  have before := adopted.balance n
  have waiting : ((s.enqueue client).waiting n : Int) = s.waiting n + one client n := by
    simp only [enqueue, Session.waiting, List.countP_append, List.countP_singleton, beq_iff_eq,
      one]
    split
    · rfl
    · rfl
  have same : (s.enqueue client).balance n =
      (s.record (.adopted client.asyncHttpId)).adoptions n -
        (s.record (.adopted client.asyncHttpId)).answers n - (s.enqueue client).waiting n -
        s.carried n := rfl
  have unfolded : (s.record (.adopted client.asyncHttpId)).balance n =
      (s.record (.adopted client.asyncHttpId)).adoptions n -
        (s.record (.adopted client.asyncHttpId)).answers n - s.waiting n - s.carried n := rfl
  rw [same, waiting]
  rw [unfolded] at before
  omega

/-- How often a request is among some. -/
def among (clients : List Client) (n : Nat) : Int :=
  (clients.countP fun client => client.asyncHttpId == n : Nat)

theorem among_cons (client : Client) (clients : List Client) (n : Nat) :
    among (client :: clients) n = one client n + among clients n := by
  simp only [among, List.countP_cons, beq_iff_eq, one]
  split
  · omega
  · omega

/-- The parked requests are taken up. -/
theorem takePending_good {s : Session hp} {owed : Nat → Int} (good : Good s owed) :
    Good ({ s with pendingAttach := [] } : Session hp)
      fun n => owed n + among s.pendingAttach n := by
  refine ⟨Aside.follows (s := s) { (Quiet.refl s).aside with } good.follows, fun n => ?_⟩
  have before := good.balance n
  have same : ({ s with pendingAttach := [] } : Session hp).balance n =
      s.adoptions n - s.answers n - (0 : Nat) - s.carried n := rfl
  have waiting : (s.waiting n : Int) = among s.pendingAttach n := rfl
  rw [same]
  rw [Session.balance] at before
  omega

theorem answerAll_good {s : Session hp} {owed : Nat → Int} (clients : List Client)
    (answer : Answer) (good : Good s fun n => owed n + among clients n) :
    Good (clients.foldl (fun t client => t.answer client answer) s) owed := by
  induction clients generalizing s with
  | nil => exact ⟨good.follows, fun n => (good.balance n).trans (Int.add_zero _)⟩
  | cons client clients ih =>
      have answered := answer_good good client answer
      refine ih ⟨answered.follows, fun n => (answered.balance n).trans ?_⟩
      simp only [among_cons]
      omega

/-! ### Streams go -/

/-- A stream that is there is taken off the session. -/
theorem carried_swapRemove {s : Session hp} {id n : Nat} {stream : Stream}
    (found : s.streams.get id = some stream) :
    s.carried n = ({ s with streams := s.streams.swapRemove id } : Session hp).carried n +
      (stream.carries n).toNat := by
  have same := (OrderedMap.perm_swapRemove found).countP_eq fun entry => entry.2.carries n
  rw [List.countP_cons] at same
  rw [Session.carried, same, Session.carried]
  cases stream.carries n with
  | false => rfl
  | true => rfl

theorem Kept.swapRemove {s : Session hp} {id : Nat} {stream : Stream} (kept : s.Kept)
    (found : s.streams.get id = some stream) :
    ({ s with streams := s.streams.swapRemove id } : Session hp).Kept where
  distinct := (OrderedMap.nodup_swapRemove found kept.distinct).1
  named := by
    intro other stream foundOther
    change (s.streams.swapRemove id).get other = some stream at foundOther
    rw [OrderedMap.get_swapRemove found kept.distinct] at foundOther
    split at foundOther
    · cases foundOther
    · exact kept.named other stream foundOther
  expecting := kept.expecting

/-- The fragments of an unfinished block stay when its stream goes. -/
theorem removeStream_gathered {s : Session hp} {stream : Stream} (kept : s.Kept)
    (holds : s.Holds stream) : (s.removeStream stream).gathered = s.gathered := by
  obtain ⟨before, found, samePart⟩ := Option.map_eq_some_iff.mp holds
  have sameBlock : before.headerBlock = stream.headerBlock :=
    congrArg (fun part => part.2.1) samePart
  have removed (id : Nat) := @OrderedMap.get_swapRemove _ _ _ _ _ id _ found kept.distinct
  unfold removeStream gathered
  by_cases isExpected : s.expectingContinuation = stream.id
  · simp only [isExpected, if_true, removed, found]
    exact sameBlock.symm
  · have different : stream.id ≠ s.expectingContinuation := fun same => isExpected same.symm
    simp only [isExpected, if_false, removed, different]

theorem removeStream_kept {s : Session hp} {stream : Stream} (kept : s.Kept)
    (holds : s.Holds stream) : (s.removeStream stream).Kept := by
  obtain ⟨before, found, -⟩ := Option.map_eq_some_iff.mp holds
  have removed := kept.swapRemove found
  unfold removeStream
  simp only
  split
  · exact ⟨removed.distinct, removed.named, removed.expecting⟩
  · exact removed

theorem removeStream_good {s : Session hp} {owed : Nat → Int} {stream : Stream}
    (good : Good s owed) (holds : s.Holds stream) :
    Good (s.removeStream stream) fun n => owed n + (stream.carries n).toNat := by
  obtain ⟨before, found, samePart⟩ := Option.map_eq_some_iff.mp holds
  have log : (s.removeStream stream).log = s.log ∧
      (s.removeStream stream).decoder = s.decoder ∧
      (s.removeStream stream).fatalError = s.fatalError ∧
      (s.removeStream stream).expectingContinuation = s.expectingContinuation ∧
      (s.removeStream stream).streams = s.streams.swapRemove stream.id ∧
      (s.removeStream stream).pendingAttach = s.pendingAttach := by
    unfold removeStream
    simp only
    split
    · exact ⟨rfl, rfl, rfl, rfl, rfl, rfl⟩
    · exact ⟨rfl, rfl, rfl, rfl, rfl, rfl⟩
  obtain ⟨log, decoder, fatalError, expecting, streams, pending⟩ := log
  refine ⟨fun alive => ?_, fun n => ?_⟩
  · have inStep := good.follows (fatalError.symm.trans alive)
    rw [InStep, log]
    refine ⟨removeStream_kept inStep.kept holds, ?_, ?_⟩
    · rw [decoder]
      exact inStep.decoder
    · rw [expecting, removeStream_gathered inStep.kept holds]
      exact inStep.unfinished
  · have beforeBalance := good.balance n
    have sameCarries : before.carries n = stream.carries n :=
      congrArg (fun part => part.2.2 == some n) samePart
    have carried := carried_swapRemove (n := n) found
    rw [sameCarries] at carried
    have sameCarried : (s.removeStream stream).carried n =
        ({ s with streams := s.streams.swapRemove stream.id } : Session hp).carried n := by
      rw [Session.carried, streams, Session.carried]
    rw [Session.balance] at beforeBalance
    rw [Session.balance, Session.adoptions, Session.answers, Session.waiting, log, pending,
      sameCarried]
    rw [Session.adoptions, Session.answers, Session.waiting] at beforeBalance
    omega

/-! ### The end -/

theorem answer?_good {s : Session hp} {owed : Nat → Int} (good : Good s owed)
    (stream : Stream) (answer : Answer) :
    Good (s.answer? stream.client answer) fun n => owed n - (stream.carries n).toNat := by
  cases isClient : stream.client with
  | none =>
      refine ⟨good.follows, fun n => (good.balance n).trans ?_⟩
      simp [Stream.carries, isClient]
  | some client =>
      have answered := answer_good good client answer
      refine ⟨answered.follows, fun n => (answered.balance n).trans ?_⟩
      by_cases isN : client.asyncHttpId = n
      · simp [Stream.carries, isClient, one, isN]
      · have other : (client.asyncHttpId == n) = false := beq_eq_false_iff_ne.mpr isN
        simp [Stream.carries, isClient, one, isN, other]

theorem answerStreams_good {s : Session hp} {owed : Nat → Int}
    (streams : OrderedMap Nat Stream) (answer : Answer)
    (good : Good s fun n => owed n + (streams.countP fun e => e.2.carries n : Nat)) :
    Good (streams.foldl (fun t entry => t.answer? entry.2.client answer) s) owed := by
  induction streams generalizing s with
  | nil => exact ⟨good.follows, fun n => (good.balance n).trans (Int.add_zero _)⟩
  | cons entry streams ih =>
      have answered := answer?_good good entry.2 answer
      refine ih ⟨answered.follows, fun n => (answered.balance n).trans ?_⟩
      simp only [List.countP_cons]
      cases entry.2.carries n with
      | false => simp
      | true =>
          simp only [if_true, Bool.toNat_true]
          omega

end Session

end Bunx.Http2
