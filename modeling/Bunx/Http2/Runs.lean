/-
Module: Bunx.Http2.Runs
Purpose: Along every run of a session, in whatever order requests come, are aborted and are
  delivered and data comes from the socket, the decoder stays in step and the books are right.
Trusted boundary: none
Main exports: attach_good, deliverLoop_good, act_good, reachable_good, reachable_inStep,
  reachable_accounts
-/
import Bunx.Http2.Accounts

namespace Bunx.Http2

open Lib
open Websocket (toBeBytes)

variable {hp : Hpack}

namespace Session

variable {s t : Session hp} {owed : Nat → Int} {stream : Stream}

/-! ### The end of a session -/

theorem foldl_answer_keeps (clients : List Client) (answer : Answer) (s : Session hp) :
    (clients.foldl (fun t client => t.answer client answer) s).streams = s.streams ∧
      (clients.foldl (fun t client => t.answer client answer) s).pendingAttach =
        s.pendingAttach ∧
      (clients.foldl (fun t client => t.answer client answer) s).fatalError = s.fatalError := by
  induction clients generalizing s with
  | nil => exact ⟨rfl, rfl, rfl⟩
  | cons client clients ih => exact ih (s.answer client answer)

theorem foldl_answer?_keeps (streams : OrderedMap Nat Stream) (answer : Answer)
    (s : Session hp) :
    (streams.foldl (fun t entry => t.answer? entry.2.client answer) s).streams = s.streams ∧
      (streams.foldl (fun t entry => t.answer? entry.2.client answer) s).pendingAttach =
        s.pendingAttach ∧
      (streams.foldl (fun t entry => t.answer? entry.2.client answer) s).fatalError =
        s.fatalError := by
  induction streams generalizing s with
  | nil => exact ⟨rfl, rfl, rfl⟩
  | cons entry streams ih =>
      obtain ⟨same, samePending, sameError⟩ := ih (s.answer? entry.2.client answer)
      have one : (s.answer? entry.2.client answer).streams = s.streams ∧
          (s.answer? entry.2.client answer).pendingAttach = s.pendingAttach ∧
          (s.answer? entry.2.client answer).fatalError = s.fatalError := by
        cases entry.2.client with
        | none => exact ⟨rfl, rfl, rfl⟩
        | some client => exact ⟨rfl, rfl, rfl⟩
      exact ⟨same.trans one.1, samePending.trans one.2.1, sameError.trans one.2.2⟩

theorem onClose_fatalError (s : Session hp) (error : Error) :
    (s.onClose error).fatalError = s.fatalError :=
  (foldl_answer?_keeps _ _ _).2.2.trans (foldl_answer_keeps _ _ _).2.2

theorem onClose_pendingAttach (s : Session hp) (error : Error) :
    (s.onClose error).pendingAttach = [] :=
  (foldl_answer?_keeps _ _ _).2.1.trans (foldl_answer_keeps _ _ _).2.1

/-- Whoever waits or has a stream gets an answer. -/
theorem onClose_balance (good : Good s owed) (error : Error) (n : Nat) :
    (s.onClose error).balance n = owed n := by
  have parked := answerAll_good s.pendingAttach (.failed error) (takePending_good good)
  have streams := (foldl_answer_keeps s.pendingAttach (.failed error)
    ({ s with pendingAttach := [] } : Session hp)).1
  have closes : s.onClose error = { (s.streams.foldl
      (fun t entry => t.answer? entry.2.client (.failed error))
      (s.pendingAttach.foldl (fun t client => t.answer client (.failed error))
        { s with pendingAttach := [] })) with streams := [] } := rfl
  rw [closes]
  generalize s.pendingAttach.foldl (fun t client => t.answer client (.failed error))
    ({ s with pendingAttach := [] } : Session hp) = t at parked streams
  have served := @answerStreams_good hp t (fun n => owed n - s.carried n) s.streams
    (.failed error) ⟨parked.follows, fun n => (parked.balance n).trans (by
      rw [Session.carried]
      omega)⟩
  have same := (foldl_answer?_keeps s.streams (.failed error) t).1.trans streams
  generalize s.streams.foldl (fun t entry => t.answer? entry.2.client (.failed error)) t = u
    at served same
  have before := served.balance n
  have carried : u.carried n = s.carried n := by
    rw [Session.carried, same, Session.carried]
  have after : ({ u with streams := [] } : Session hp).balance n =
      u.adoptions n - u.answers n - u.waiting n - (0 : Nat) := rfl
  rw [Session.balance, carried] at before
  rw [after]
  omega

theorem failAll_good (good : Good s owed) (error : Error) : Good (s.failAll error) owed := by
  unfold failAll
  simp only
  generalize s.fatalError.getD error = first
  have failed : Quiet s (s.fail first) := (Quiet.refl s).fail first
  have dead : (s.fail first).fatalError ≠ none := fun alive => by cases alive
  have closed (u : Session hp) (quiet : Quiet (s.fail first) u) : Good (u.onClose error) owed :=
    ⟨fun alive => absurd (quiet.fatalError ((onClose_fatalError u error).symm.trans alive)) dead,
      onClose_balance (good.quiet (failed.trans quiet)) error⟩
  split
  · exact closed _ (.refl _)
  · exact closed _ ((writeFrame_quiet _ _ _ _ _).trans (flush_quiet _))

/-- What is to be sent is sent, or the session fails. -/
theorem flushed_good (good : Good s owed) (error : Error) :
    Good (if s.flush.2 then s.flush.1 else s.flush.1.failAll error) owed := by
  have flushed := good.quiet (flush_quiet s)
  split
  · exact flushed
  · exact failAll_good flushed error

/-! ### Requests come -/

theorem hasHeadroom_alive (room : s.hasHeadroom = true) :
    s.fatalError = none ∧ s.nextStreamId < MAX_STREAM_ID := by
  simp only [hasHeadroom, Bool.and_eq_true, Option.isNone_iff_eq_none, decide_eq_true_eq] at room
  exact ⟨room.1.1.2, room.2⟩

/-- A stream with a new identifier is added. -/
theorem open_good {client : Client} (good : Good s owed) (alive : s.fatalError = none)
    (room : s.nextStreamId < MAX_STREAM_ID) :
    Good (({ s with nextStreamId := saturatingAdd s.nextStreamId 2 } : Session hp).putStream
        (s.newStream client)) (fun n => owed n - one client n) ∧
      (({ s with nextStreamId := saturatingAdd s.nextStreamId 2 } : Session hp).putStream
        (s.newStream client)).Holds (s.newStream client) := by
  generalize isStream : s.newStream client = stream
  have sameId : stream.id = s.nextStreamId := by rw [← isStream]; rfl
  have sameClient : stream.client = some client := by rw [← isStream]; rfl
  have isPut : (({ s with nextStreamId := saturatingAdd s.nextStreamId 2 } :
      Session hp).putStream stream) =
      { s with
        nextStreamId := saturatingAdd s.nextStreamId 2
        streams := s.streams.put s.nextStreamId fun _ => stream } := by
    rw [putStream, sameId]
  rw [isPut]
  have inStep := good.follows alive
  have kept := inStep.kept
  have absent : s.streams.get s.nextStreamId = none := by
    cases found : s.streams.get s.nextStreamId with
    | none => rfl
    | some other => exact absurd (kept.named _ _ found).2.2 (Nat.lt_irrefl _)
  have isMax : MAX_STREAM_ID = 2 ^ 31 - 1 := rfl
  have next : saturatingAdd s.nextStreamId 2 = s.nextStreamId + 2 := by
    unfold saturatingAdd
    omega
  have awaited := kept.expecting
  have found (id : Nat) : (s.streams.put s.nextStreamId fun _ => stream).get id =
      if s.nextStreamId = id then some stream else s.streams.get id := OrderedMap.get_put
  have isHere : (s.streams.put s.nextStreamId fun _ => stream).get s.nextStreamId =
      some stream := by rw [found, if_pos rfl]
  have gathered : ({ s with
      nextStreamId := saturatingAdd s.nextStreamId 2
      streams := s.streams.put s.nextStreamId fun _ => stream } : Session hp).gathered =
      s.gathered := by
    have different : s.nextStreamId ≠ s.expectingContinuation := by omega
    simp only [Session.gathered, found, different, if_false]
  refine ⟨⟨fun _ => ⟨⟨OrderedMap.nodup_put kept.distinct, ?_, ?_⟩, inStep.decoder, ?_⟩, ?_⟩, ?_⟩
  · intro id other foundOther
    show other.id = id ∧ id ≠ 0 ∧ id < saturatingAdd s.nextStreamId 2
    rw [next]
    change (s.streams.put s.nextStreamId fun _ => stream).get id = some other at foundOther
    rw [found] at foundOther
    split at foundOther
    · next isId =>
      cases foundOther
      exact ⟨sameId.trans isId, by omega, by omega⟩
    · obtain ⟨same, positive, less⟩ := kept.named id other foundOther
      exact ⟨same, positive, by omega⟩
  · show s.expectingContinuation < saturatingAdd s.nextStreamId 2
    omega
  · rw [gathered]
    exact inStep.unfinished
  · intro n
    have before := good.balance n
    have appended : (s.streams.put s.nextStreamId fun _ => stream) =
        s.streams ++ [(s.nextStreamId, stream)] := by
      have fresh : OrderedMap.put (s.streams ++ []) s.nextStreamId (fun _ => stream) =
          s.streams ++ OrderedMap.put [] s.nextStreamId fun _ => stream :=
        OrderedMap.put_append_of_not_mem (OrderedMap.get_eq_none_iff.mp absent)
      rwa [List.append_nil] at fresh
    have carried : (((s.streams.put s.nextStreamId fun _ => stream).countP
        fun entry => entry.2.carries n : Nat) : Int) = s.carried n + one client n := by
      rw [appended, List.countP_append, Session.carried, List.countP_singleton]
      by_cases isN : client.asyncHttpId = n
      · simp [Stream.carries, sameClient, one, isN]
      · simp [Stream.carries, sameClient, one, isN]
    show ((s.adoptions n - s.answers n - s.waiting n -
      ((s.streams.put s.nextStreamId fun _ => stream).countP
        fun entry => entry.2.carries n : Nat) : Int)) = _
    rw [carried]
    rw [Session.balance] at before
    omega
  · rw [Holds, sameId]
    exact congrArg (Option.map Stream.part) isHere

/-- A request gets its stream, or its answer. -/
theorem attach_good {client : Client} (good : Good s owed) (alive : s.fatalError = none)
    (room : s.nextStreamId < MAX_STREAM_ID) (goes : s.attach client = some t) :
    Good t fun n => owed n - one client n := by
  unfold attach at goes
  simp only at goes
  obtain ⟨opened, holds⟩ := @open_good hp s owed client good alive room
  have awaited : (({ s with nextStreamId := saturatingAdd s.nextStreamId 2 } :
      Session hp).putStream (s.newStream client)).expectingContinuation < s.nextStreamId :=
    (good.follows alive).kept.expecting
  have sameId : (s.newStream client).id = s.nextStreamId := rfl
  have sameClient : (s.newStream client).client = some client := rfl
  generalize s.newStream client = stream at goes opened holds awaited sameId sameClient
  generalize ({ s with nextStreamId := saturatingAdd s.nextStreamId 2 } :
    Session hp).putStream stream = first at goes opened holds awaited
  generalize isSecond : (if first.prefaceSent = true then first else first.writePreface) = second
    at goes
  have prefaced : Quiet first second := by
    rw [← isSecond]
    split
    · exact .refl _
    · exact writePreface_quiet first
  obtain ⟨⟨third, sent, encoded⟩, writes, goes⟩ := Option.bind_eq_some_iff.mp goes
  obtain ⟨written, samePart⟩ := writeRequest_quiet writes
  have quiet := prefaced.trans written
  have goodThird := opened.quiet quiet
  have holdsSent : third.Holds sent := Holds.of_part (quiet.holds holds) samePart
  simp only at goes
  split at goes
  · cases goes
    exact flushed_good (goodThird.quiet (putStream_quiet holdsSent)) _
  · cases goes
    -- Nothing was sent: the stream is gone before the peer hears of it.
    have isSame : sent.id = stream.id := congrArg Prod.fst samePart
    have different : third.expectingContinuation ≠ sent.id := by
      rw [quiet.expecting, isSame, sameId]
      exact Nat.ne_of_lt awaited
    have removed := removeStream_good goodThird holdsSent
    have carries (n : Nat) : ((sent.carries n).toNat : Int) = one client n := by
      have same : sent.carries n = stream.carries n :=
        congrArg (fun part => part.2.2 == some n) samePart
      rw [same, Stream.carries, sameClient]
      by_cases isN : client.asyncHttpId = n
      · simp [one, isN]
      · have other : (client.asyncHttpId == n) = false := beq_eq_false_iff_ne.mpr isN
        simp [one, isN, other]
    have isRemoved : third.removeStream sent =
        { third with streams := third.streams.swapRemove sent.id } := by
      simp only [removeStream, different, if_false]
    rw [isRemoved] at removed
    have poisoned : Quiet ({ third with streams := third.streams.swapRemove sent.id } :
        Session hp) { third with
          encoderPoisoned := true
          streams := third.streams.swapRemove sent.id } := { Quiet.refl _ with }
    have answered := answer_good (removed.quiet poisoned) client (.failed .UnableToEncode)
    have bounced := answerAll_good _ .retriedAfterCoalesce (takePending_good answered)
    have flushed := bounced.quiet (flush_quiet _)
    refine ⟨flushed.follows, fun n => (flushed.balance n).trans ?_⟩
    rw [carries]
    omega

theorem adopt_good {client : Client} (good : Good s owed) (goes : s.adopt client = some t) :
    Good t owed := by
  unfold adopt at goes
  split at goes
  · cases goes
    exact enqueue_good good client
  · have adopted := adopted_good good client
    simp only at goes
    have settled {u : Session hp}
        (attached : Good u fun n => owed n + one client n - one client n) : Good u owed :=
      ⟨attached.follows, fun n => (attached.balance n).trans (by omega)⟩
    split at goes
    · next room =>
      obtain ⟨alive, small⟩ := hasHeadroom_alive room
      exact settled (attach_good adopted alive small goes)
    · cases goes
      exact settled (answer_good adopted client .retriedAfterCoalesce)

theorem drainWaiter_good {aborted : Nat → Bool} {client : Client} (good : Good s owed)
    (goes : drainWaiter aborted s client = some t) : Good t fun n => owed n - one client n := by
  unfold drainWaiter at goes
  split at goes
  · cases goes
    exact answer_good good client _
  · split at goes
    · cases goes
      exact answer_good good client _
    · split at goes
      · next room =>
        obtain ⟨alive, small⟩ := hasHeadroom_alive room
        exact attach_good good alive small goes
      · cases goes
        exact answer_good good client _

theorem drainWaiters_good {aborted : Nat → Bool} {clients : List Client}
    (good : Good s fun n => owed n + among clients n)
    (goes : clients.foldlM (drainWaiter aborted) s = some t) : Good t owed := by
  induction clients generalizing s with
  | nil =>
      cases goes
      exact ⟨good.follows, fun n => (good.balance n).trans (Int.add_zero _)⟩
  | cons client clients ih =>
      rw [List.foldlM_cons] at goes
      obtain ⟨u, one, goes⟩ := Option.bind_eq_some_iff.mp goes
      have drained := drainWaiter_good good one
      refine ih ⟨drained.follows, fun n => (drained.balance n).trans ?_⟩ goes
      simp only [among_cons]
      omega

theorem drainPending_good {aborted : Nat → Bool} (good : Good s owed)
    (goes : s.drainPending aborted = some t) : Good t owed := by
  unfold drainPending at goes
  split at goes
  · cases goes
    exact good
  · exact drainWaiters_good (takePending_good good) goes

/-! ### Requests are aborted -/

theorem detachWithFailure_good (good : Good s owed) (holds : s.Holds stream) (error : Error) :
    Good (s.detachWithFailure stream error) owed := by
  unfold detachWithFailure
  simp only
  obtain ⟨reset, samePart⟩ := rstStream_quiet s stream .cancel
  have holdsReset : (s.rstStream stream .cancel).1.Holds (s.rstStream stream .cancel).2 :=
    Holds.of_part (reset.holds holds) samePart
  generalize s.rstStream stream .cancel = result at reset samePart holdsReset
  have put := putStream_quiet holdsReset
  have quiet := (reset.trans put).trans (flush_quiet _)
  have holdsNext : (result.1.putStream result.2).flush.1.Holds result.2 :=
    (put.trans (flush_quiet _)).holds holdsReset
  have answered := answer?_good (removeStream_good (good.quiet quiet) holdsNext) result.2
    (.failed error)
  exact ⟨answered.follows, fun n => (answered.balance n).trans (by omega)⟩

/-- A stream that is found by its client is the session's. -/
theorem streamOf_holds {n : Nat} (kept : s.Kept) (found : s.streamOf n = some stream) :
    s.Holds stream := by
  have member := List.mem_of_find?_eq_some found
  obtain ⟨⟨id, other⟩, isEntry, rfl⟩ := List.mem_map.mp member
  exact Holds.of_get kept (OrderedMap.get_of_mem kept.distinct isEntry)

theorem abortByHttpId_good (good : Good s owed) (alive : s.fatalError = none) (id : Nat) :
    Good (s.abortByHttpId id) owed := by
  unfold abortByHttpId
  simp only
  generalize s.pendingAttach.findIdx (fun client => client.asyncHttpId == id) = i
  split
  · next client isHere =>
    have nonempty : s.pendingAttach ≠ [] := by
      intro none
      rw [none] at isHere
      cases isHere
    obtain ⟨last, isLast⟩ := Option.ne_none_iff_exists'.mp
      (fun none => nonempty (List.getLast?_eq_none_iff.mp none))
    have perm := perm_set_dropLast isHere isLast
    have taken : Good ({ s with pendingAttach := swapRemoveAt s.pendingAttach i } :
        Session hp) fun n => owed n + one client n := by
      refine ⟨Aside.follows (s := s) { (Quiet.refl s).aside with } good.follows, fun n => ?_⟩
      have before := good.balance n
      have count : (s.waiting n : Int) = one client n +
          among (swapRemoveAt s.pendingAttach i) n := by
        rw [swapRemoveAt, isLast, ← among_cons, Session.waiting, perm.countP_eq]
        rfl
      show (s.adoptions n - s.answers n - among (swapRemoveAt s.pendingAttach i) n -
        s.carried n : Int) = _
      rw [Session.balance] at before
      omega
    have answered := answer_good taken client (.failed .Aborted)
    exact ⟨answered.follows, fun n => (answered.balance n).trans (by omega)⟩
  · split
    · exact good
    · next stream found =>
      exact detachWithFailure_good good (streamOf_holds (good.follows alive).kept found) _

theorem mem_holds {i id : Nat} (kept : s.Kept) (here : s.streams[i]? = some (id, stream)) :
    s.Holds stream :=
  Holds.of_get kept (OrderedMap.get_of_mem kept.distinct (List.mem_of_getElem? here))

theorem detachWithFailure_kept (kept : s.Kept) (holds : s.Holds stream) (error : Error) :
    (s.detachWithFailure stream error).Kept := by
  unfold detachWithFailure
  simp only
  obtain ⟨reset, samePart⟩ := rstStream_quiet s stream .cancel
  have holdsReset : (s.rstStream stream .cancel).1.Holds (s.rstStream stream .cancel).2 :=
    Holds.of_part (reset.holds holds) samePart
  generalize s.rstStream stream .cancel = result at reset samePart holdsReset
  have put := (putStream_quiet holdsReset).trans (flush_quiet _)
  have removed := removeStream_kept (put.kept (reset.kept kept)) (put.holds holdsReset)
  cases result.2.client with
  | none => exact removed
  | some client => exact ⟨removed.distinct, removed.named, removed.expecting⟩

theorem reapAbortedLoop_good {aborted : Nat → Bool} {fuel i : Nat} (good : Good s owed)
    (kept : s.Kept) : Good (reapAbortedLoop aborted fuel i s) owed := by
  induction fuel generalizing i s with
  | zero => exact good
  | succ fuel ih =>
      rw [reapAbortedLoop]
      split
      · exact good
      · next id stream here =>
        have holds : s.Holds stream := mem_holds kept here
        split
        · exact ih (detachWithFailure_good good holds _)
            (detachWithFailure_kept kept holds _)
        · exact ih good kept

/-! ### Responses go -/

/-- What the delivery of a stream comes to: it goes on, or its client has an answer and is gone. -/
inductive Delivered (s : Session hp) (stream : Stream) : Session hp × Stream × Bool → Prop where
  | goesOn {t : Session hp} {after : Stream} (quiet : Quiet s t)
      (same : after.part = stream.part) : Delivered s stream (t, after, false)
  | unclaimed (none : stream.client = none) : Delivered s stream (s, stream, true)
  | answered {t : Session hp} {after : Stream} {client : Client} (answer : Answer)
      (isClient : stream.client = some client) (quiet : Quiet s t)
      (same : after.fragments = stream.fragments) :
      Delivered s stream (t.answer client answer, { after with client := none }, true)

theorem abandon_delivered {client : Client} {before : Stream} (answer : Answer)
    (isClient : before.client = some client) (same : stream.fragments = before.fragments) :
    Delivered s before (s.abandon stream client answer) := by
  obtain ⟨quiet, samePart⟩ := rstStream_quiet s stream .cancel
  have fragments : (s.rstStream stream .cancel).2.fragments = stream.fragments :=
    congrArg (fun part => (part.1, part.2.1)) samePart
  exact .answered answer isClient (quiet.trans (flush_quiet _)) (fragments.trans same)

theorem deliverBody_delivered {client : Client} {before : Stream} (delivery : Delivery)
    (isClient : before.client = some client) (same : stream.part = before.part) :
    Delivered s before (s.deliverBody stream client delivery) := by
  have fragments : stream.fragments = before.fragments :=
    congrArg (fun part => (part.1, part.2.1)) same
  unfold deliverBody
  split
  · exact .goesOn (.refl s) same
  · split
    · split
      · exact abandon_delivered _ isClient fragments
      · simp only
        split
        · exact .answered _ isClient (.refl s) fragments
        · split
          · exact @Delivered.answered hp s before s { stream with bodyBuffer := [] } client
              .finished isClient (.refl s) fragments
          · exact .goesOn (.refl s) same
    · split
      · exact .answered _ isClient (.refl s) fragments
      · exact .goesOn (.refl s) same

theorem deliverStream_delivered (s : Session hp) (stream : Stream) (delivery : Delivery) :
    Delivered s stream (s.deliverStream stream delivery) := by
  unfold deliverStream
  split
  · next none => exact .unclaimed none
  · next client isClient =>
    split
    · exact abandon_delivered _ isClient rfl
    · split
      · exact .answered _ isClient (.refl s) rfl
      · split
        · simp only
          split
          · exact abandon_delivered _ isClient rfl
          · split
            · exact abandon_delivered _ isClient rfl
            · split
              · exact .answered _ isClient (.refl s) rfl
              · exact deliverBody_delivered delivery isClient rfl
        · exact deliverBody_delivered delivery isClient rfl

theorem adoptAll_good (clients : List Client) (good : Good s owed) :
    Good (s.adoptAll clients) owed := by
  induction clients generalizing s with
  | nil => exact good
  | cons client clients ih => exact ih (enqueue_good good client)

theorem adoptAll_keeps (clients : List Client) (s : Session hp) :
    (s.adoptAll clients).streams = s.streams ∧
      (s.adoptAll clients).fatalError = s.fatalError ∧
      (s.adoptAll clients).nextStreamId = s.nextStreamId ∧
      (s.adoptAll clients).expectingContinuation = s.expectingContinuation := by
  induction clients generalizing s with
  | nil => exact ⟨rfl, rfl, rfl, rfl⟩
  | cons client clients ih => exact ih (s.enqueue client)

theorem adoptAll_kept (clients : List Client) (kept : s.Kept) : (s.adoptAll clients).Kept := by
  obtain ⟨streams, -, next, expecting⟩ := adoptAll_keeps clients s
  refine ⟨?_, ?_, ?_⟩
  · rw [streams]
    exact kept.distinct
  · rw [streams, next]
    exact kept.named
  · rw [expecting, next]
    exact kept.expecting

theorem adoptAll_holds (clients : List Client) (holds : s.Holds stream) :
    (s.adoptAll clients).Holds stream := by
  rw [Holds, (adoptAll_keeps clients s).1]
  exact holds

/-- A stream whose client has its answer is taken off the session. -/
theorem finished_good {after : Stream} (good : Good s owed) (kept : s.Kept)
    (holds : s.Holds stream) (same : after.fragments = stream.fragments)
    (gone : after.client = none) :
    Good ((s.putStream after).removeStream after) (fun n => owed n + (stream.carries n).toNat) ∧
      ((s.putStream after).removeStream after).Kept := by
  obtain ⟨before, found, samePart⟩ := Option.map_eq_some_iff.mp holds
  have sameId : after.id = stream.id := congrArg Prod.fst same
  have isFound : (s.streams.get after.id) = some before := by
    rw [sameId]
    exact found
  have isPut : ((s.putStream after).streams.get after.id) = some after := by
    show (s.streams.put after.id fun _ => after).get after.id = _
    rw [OrderedMap.get_put, if_pos rfl]
  have holdsAfter : (s.putStream after).Holds after := congrArg (Option.map Stream.part) isPut
  have aside : Aside s (s.putStream after) :=
    { (Quiet.refl s).aside with
      keys := by
        show (s.streams.put after.id fun _ => after).keys = s.streams.keys
        rw [OrderedMap.keys_put, if_pos (OrderedMap.mem_keys_iff.mpr ⟨before, isFound⟩)]
      streams := by
        intro id
        show ((s.streams.put after.id fun _ => after).get id).map _ = _
        rw [OrderedMap.get_put]
        split
        · next isId =>
          rw [← isId, isFound, Option.map_some, Option.map_some, same]
          exact congrArg (fun part => some (part.1, part.2.1)) samePart.symm
        · rfl }
  have counts (n : Nat) := @OrderedMap.countP_put _ _ _ _ _ (Stream.carries n) _ after isFound
  have put : Good (s.putStream after) fun n => owed n + (stream.carries n).toNat := by
    refine ⟨aside.follows good.follows, fun n => ?_⟩
    have beforeBalance := good.balance n
    have sameCarries : before.carries n = stream.carries n :=
      congrArg (fun part => part.2.2 == some n) samePart
    have none : after.carries n = false := by simp [Stream.carries, gone]
    have count := counts n
    rw [sameCarries, none] at count
    show (s.adoptions n - s.answers n - s.waiting n -
      ((s.streams.put after.id fun _ => after).countP fun e => e.2.carries n : Nat) : Int) = _
    rw [Session.balance, Session.carried] at beforeBalance
    simp only [Bool.toNat_false, Nat.add_zero] at count
    omega
  have removed := removeStream_good put holdsAfter
  refine ⟨⟨removed.follows, fun n => (removed.balance n).trans ?_⟩,
    removeStream_kept (aside.kept kept) holdsAfter⟩
  simp [Stream.carries, gone]

/-- A stream that is done is reset where it is open, and forgotten. -/
theorem forgotten_good {after : Stream} {closed : Session hp × Stream}
    (isClosed : (if (after.state != .Closed) = true then s.rstStream after .cancel
      else (s, after)) = closed)
    (good : Good s owed) (kept : s.Kept) (holds : s.Holds stream)
    (same : after.fragments = stream.fragments) (gone : after.client = none) :
    Good ((closed.1.putStream closed.2).removeStream closed.2)
        (fun n => owed n + (stream.carries n).toNat) ∧
      ((closed.1.putStream closed.2).removeStream closed.2).Kept := by
  subst isClosed
  obtain ⟨quiet, samePart⟩ := rstStream_quiet s after .cancel
  split
  · refine finished_good (good.quiet quiet) (quiet.kept kept) (quiet.holds holds) ?_ ?_
    · exact (congrArg (fun part => (part.1, part.2.1)) samePart).trans same
    · exact Option.map_eq_none_iff.mp ((congrArg (fun part => part.2.2) samePart).trans
        (congrArg (Option.map Client.asyncHttpId) gone))
  · exact finished_good good kept holds same gone

theorem deliverLoop_good {fuel i : Nat} {rstAny reset : Bool} {deliveries : List Delivery}
    (good : Good s owed) (kept : s.Kept)
    (goes : deliverLoop fuel i rstAny deliveries s = some (t, reset)) : Good t owed := by
  induction fuel generalizing i rstAny deliveries s with
  | zero => cases goes
  | succ fuel ih =>
      rw [deliverLoop] at goes
      split at goes
      · cases goes
        exact good
      · next id stream here =>
        have holds : s.Holds stream := mem_holds kept here
        simp only at goes
        have delivered := deliverStream_delivered s stream (deliveries.headD {})
        generalize s.deliverStream stream (deliveries.headD {}) = result at delivered goes
        cases delivered with
        | goesOn quiet same =>
            have put := putStream_quiet
              ((adoptAll_holds (deliveries.headD {}).adopts (quiet.holds holds)).of_part same)
            exact ih ((adoptAll_good _ (good.quiet quiet)).quiet put)
              (put.kept (adoptAll_kept _ (quiet.kept kept))) goes
        | unclaimed none =>
            obtain ⟨goodNow, keptNow⟩ := forgotten_good rfl (adoptAll_good _ good)
              (adoptAll_kept _ kept) (adoptAll_holds _ holds) rfl none
            refine ih ⟨goodNow.follows, fun n => (goodNow.balance n).trans ?_⟩
              keptNow goes
            simp [Stream.carries, none]
        | @answered u after client answer isClient quiet same =>
            have keptAnswered : (u.answer client answer).Kept :=
              (@record_aside hp u (.answered client.asyncHttpId answer) rfl).kept
                (quiet.kept kept)
            have holdsAnswered : (u.answer client answer).Holds stream := quiet.holds holds
            have sameNext : ({ after with client := none } : Stream).fragments = stream.fragments :=
              same
            have gone : ({ after with client := none } : Stream).client = none := rfl
            obtain ⟨goodNow, keptNow⟩ := forgotten_good rfl
              (adoptAll_good _ (answer_good (good.quiet quiet) client answer))
              (adoptAll_kept _ keptAnswered) (adoptAll_holds _ holdsAnswered) sameNext gone
            refine ih ⟨goodNow.follows, fun n => (goodNow.balance n).trans ?_⟩
              keptNow goes
            rw [Stream.carries, isClient]
            by_cases isN : client.asyncHttpId = n
            · simp [one, isN]
            · have other : (client.asyncHttpId == n) = false := beq_eq_false_iff_ne.mpr isN
              simp [one, isN, other]

/-! ### Events of the socket -/

theorem parseFrames_good {bytes rest : Bytes} (good : Good s owed) (alive : s.fatalError = none)
    (parses : s.parseFrames bytes = some (t, rest)) : Good t owed := by
  obtain ⟨follows, even⟩ := parseFrames_follows alive (good.follows alive) parses
  exact ⟨follows, fun n => (even.balance n).trans (good.balance n)⟩

theorem readFrames_good {incoming : Bytes} (good : Good s owed) (alive : s.fatalError = none)
    (goes : s.readFrames incoming = some t) : Good t owed := by
  have arrived : Quiet s (s.record (.arrived incoming)) := record_quiet ⟨rfl, rfl⟩
  unfold readFrames at goes
  simp only at goes
  split at goes
  · obtain ⟨⟨u, rest⟩, parses, goes⟩ := Option.bind_eq_some_iff.mp goes
    have parsed := parseFrames_good (good.quiet arrived) alive parses
    cases goes
    split
    · exact parsed.quiet { Quiet.refl u with }
    · exact parsed
  · obtain ⟨⟨u, rest⟩, parses, goes⟩ := Option.bind_eq_some_iff.mp goes
    have gathered : Quiet (s.record (.arrived incoming)) ({ s.record (.arrived incoming) with
        readBuffer := (s.record (.arrived incoming)).readBuffer ++ incoming } : Session hp) :=
      { Quiet.refl _ with }
    have parsed := parseFrames_good (good.quiet (arrived.trans gathered)) alive parses
    cases goes
    exact parsed.quiet { Quiet.refl u with }

theorem finishData_good {rstAny : Bool} {aborted : Nat → Bool} (good : Good s owed)
    (goes : s.finishData rstAny aborted = some t) : Good t owed := by
  unfold finishData at goes
  simp only at goes
  generalize isSent : (if (rstAny || !({ s with delivering := false } :
      Session hp).replenishWindow.writeBuffer.isEmpty) = true then
      ({ s with delivering := false } : Session hp).replenishWindow.flush.1
      else ({ s with delivering := false } : Session hp).replenishWindow) = sent at goes
  have done : Quiet s ({ s with delivering := false } : Session hp) := { Quiet.refl s with }
  have replenished := done.trans (replenishWindow_quiet _)
  have quiet : Quiet s sent := by
    rw [← isSent]
    split
    · exact replenished.trans (flush_quiet _)
    · exact replenished
  have goodSent := good.quiet quiet
  split at goes
  · cases goes
    exact goodSent
  · obtain ⟨u, drains, goes⟩ := Option.bind_eq_some_iff.mp goes
    have drained := drainPending_good goodSent drains
    split at goes
    · cases goes
      exact drained
    · cases goes
      exact flushed_good drained _

theorem serveStreams_good {env : Environment} (good : Good s owed)
    (goes : s.serveStreams env = some t) : Good t owed := by
  unfold serveStreams at goes
  obtain ⟨u, drains, goes⟩ := Option.bind_eq_some_iff.mp goes
  have drained := drainPending_good good drains
  cases isFailed : u.fatalError with
  | some error =>
      simp only [isFailed, Option.isSome_some, if_true] at goes
      cases goes
      exact drained
  | none =>
      simp only [isFailed, Option.isSome_none, Bool.false_eq_true, if_false] at goes
      obtain ⟨v, sends, goes⟩ := Option.bind_eq_some_iff.mp goes
      have keptNow := (drained.follows isFailed).kept
      have sent := drainSendBodies_quiet keptNow sends
      have flushed := sent.trans (flush_quiet v)
      split at goes
      · obtain ⟨⟨w, rstAny⟩, delivers, goes⟩ := Option.bind_eq_some_iff.mp goes
        have quiet : Quiet u ({ v.flush.1 with delivering := true } : Session hp) :=
          flushed.trans { Quiet.refl _ with }
        exact finishData_good
          (deliverLoop_good (drained.quiet quiet) (quiet.kept keptNow) delivers) goes
      · cases goes
        exact failAll_good (drained.quiet flushed) _

theorem onData_good {incoming : Bytes} {env : Environment} (good : Good s owed)
    (alive : s.fatalError = none) (goes : s.onData incoming env = some t) : Good t owed := by
  unfold onData at goes
  obtain ⟨u, reads, goes⟩ := Option.bind_eq_some_iff.mp goes
  have started : Quiet s ({ s with streamProgressed := false } : Session hp) :=
    { Quiet.refl s with }
  have read := readFrames_good (good.quiet started) alive reads
  simp only at goes
  generalize isAfter : (if u.flush.2 = true then u.flush.1 else u.flush.1.fail .WriteFailed) =
    after at goes
  have quiet : Quiet u after := by
    rw [← isAfter]
    split
    · exact flush_quiet u
    · exact (flush_quiet u).fail _
  split at goes
  · cases goes
    exact failAll_good (read.quiet quiet) _
  · exact serveStreams_good (read.quiet quiet) goes

theorem onWritable_good {aborted : Nat → Bool} (good : Good s owed) (alive : s.fatalError = none)
    (goes : s.onWritable aborted = some t) : Good t owed := by
  have kept := (good.follows alive).kept
  unfold onWritable at goes
  simp only at goes
  split at goes
  · obtain ⟨u, sends, goes⟩ := Option.bind_eq_some_iff.mp goes
    have sent := drainSendBodies_quiet ((flush_quiet s).kept kept) sends
    have flushed := ((flush_quiet s).trans sent).trans (flush_quiet u)
    cases goes
    split
    · exact reapAbortedLoop_good (good.quiet flushed) (flushed.kept kept)
    · exact failAll_good (good.quiet flushed) _
  · cases goes
    exact failAll_good (good.quiet (flush_quiet s)) _

theorem onIdleData_good {incoming : Bytes} (good : Good s owed) (alive : s.fatalError = none)
    (goes : s.onIdleData incoming = some t) : Good t owed := by
  unfold onIdleData at goes
  obtain ⟨⟨u, rest⟩, parses, goes⟩ := Option.bind_eq_some_iff.mp goes
  have arrived : Quiet s ({ s.record (.arrived incoming) with
      readBuffer := (s.record (.arrived incoming)).readBuffer ++ incoming } : Session hp) :=
    (record_quiet ⟨rfl, rfl⟩).trans { Quiet.refl (s.record (.arrived incoming)) with }
  have parsed := parseFrames_good (good.quiet arrived) alive parses
  have kept : Quiet u ({ u with readBuffer := rest } : Session hp) := { Quiet.refl u with }
  have flushed := parsed.quiet (kept.trans (flush_quiet _))
  simp only at goes
  split at goes
  · cases goes
    exact flushed
  · cases goes
    exact flushed.quiet ((Quiet.refl _).fail _)

/-! ### Bodies -/

/-- The body of a request that has a stream changes. -/
theorem setBody_holds {n : Nat} {client : Client} (kept : s.Kept)
    (found : s.streamOf n = some stream) (body : HTTPRequestBody)
    (isClient : stream.client = some client) : s.Holds (setBody stream client body) :=
  (streamOf_holds kept found).of_part (setBody_part body isClient)

theorem streamBodyByHttpId_good {n : Nat} {ended : Bool} (good : Good s owed)
    (alive : s.fatalError = none) (goes : s.streamBodyByHttpId n ended = some t) :
    Good t owed := by
  have kept := (good.follows alive).kept
  unfold streamBodyByHttpId at goes
  split at goes
  · cases goes
    exact good
  · next stream found =>
    split at goes
    · cases goes
      exact good
    · next client isClient =>
      split at goes
      · next buffer _ _ =>
        obtain ⟨⟨u, sent⟩, drains, goes⟩ := Option.bind_eq_some_iff.mp goes
        obtain ⟨quiet, samePart⟩ := drainSendBody_quiet drains
        have holds := setBody_holds kept found (.stream buffer ended) isClient
        have put := putStream_quiet (Holds.of_part (quiet.holds holds) samePart)
        cases goes
        exact flushed_good (good.quiet (quiet.trans put)) _
      · cases goes
        exact good

theorem appendBody_good (good : Good s owed) (alive : s.fatalError = none) (n : Nat)
    (more : Bytes) : Good (s.appendBody n more) owed := by
  have kept := (good.follows alive).kept
  unfold appendBody
  split
  · exact good
  · next stream found =>
    split
    · exact good
    · next client isClient =>
      split
      · exact good.quiet (putStream_quiet (setBody_holds kept found _ isClient))
      · exact good

/-! ### Runs -/

theorem act_good (good : Good s owed) (step : Step s t) : Good t owed := by
  obtain ⟨alive, act⟩ := step
  cases act with
  | socket socket => exact good.quiet { Quiet.refl s with }
  | adopt client goes => exact adopt_good good goes
  | enqueue client => exact enqueue_good good client
  | onData incoming env goes => exact onData_good good alive goes
  | onWritable aborted goes => exact onWritable_good good alive goes
  | onIdleData incoming goes => exact onIdleData_good good alive goes
  | abortByHttpId id => exact abortByHttpId_good good alive id
  | streamBodyByHttpId id ended goes => exact streamBodyByHttpId_good good alive goes
  | appendBody id more => exact appendBody_good good alive id more

theorem create_good (hp : Hpack) (socket : Socket) : Good (create hp socket) fun _ => 0 where
  follows := fun _ =>
    { kept :=
        { distinct := List.nodup_nil
          named := fun _ _ found => by cases found
          expecting := Nat.zero_lt_one }
      decoder := rfl
      unfinished := rfl }
  balance := fun _ => rfl

theorem start_good {socket : Socket} {waiters : List Client} {leader : Client}
    (starts : start hp socket waiters leader = some t) : Good t fun _ => 0 := by
  obtain ⟨-, alive, next, -⟩ := adoptAll_keeps waiters (create hp socket)
  have adopted := adopted_good (adoptAll_good waiters (create_good hp socket)) leader
  have room : ((create hp socket).adoptAll waiters).nextStreamId < MAX_STREAM_ID := by
    rw [next]
    exact (by decide : 1 < MAX_STREAM_ID)
  have attached := attach_good adopted alive room starts
  exact ⟨attached.follows, fun n => (attached.balance n).trans (by omega)⟩

theorem reachable_good (reachable : Reachable s) : Good s fun _ => 0 := by
  obtain ⟨socket, waiters, leader, first, starts, run⟩ := reachable
  exact Run.invariant (fun s => Good s fun _ => 0) run (start_good starts)
    fun _ _ step good => act_good good step

/-! ### What holds in every run -/

/-- In every run, while the session has not failed, the header decoder has gone through the header
blocks that the server sent, all of them and in their order, whatever streams they were for; and
the session holds all fragments of the block that is not complete. -/
theorem reachable_inStep (reachable : Reachable s) (alive : s.fatalError = none) :
    (headerBlocks s.log).complete.foldlM (feed hp) hp.initial.1 = some s.decoder ∧
      (headerBlocks s.log).unfinished =
        if s.expectingContinuation = 0 then none else some s.gathered := by
  have stands := (reachable_good reachable).follows alive
  exact ⟨stands.decoder, stands.unfinished⟩

/-- In every run, whatever fails: each time a request was handed to the session it has had one
terminal answer, or waits, or has a stream; and no answers are owed once the session is closed. -/
theorem reachable_accounts (reachable : Reachable s) (n : Nat) :
    s.adoptions n = s.answers n + s.waiting n + s.carried n ∧
      ∀ error, (s.onClose error).adoptions n = (s.onClose error).answers n := by
  have good := reachable_good reachable
  refine ⟨?_, fun error => ?_⟩
  · have balance := good.balance n
    rw [Session.balance] at balance
    omega
  · have balance := onClose_balance good error n
    have waiting : (s.onClose error).waiting n = 0 := by
      rw [Session.waiting, onClose_pendingAttach]
      rfl
    have carried : (s.onClose error).carried n = 0 := rfl
    rw [Session.balance, waiting, carried] at balance
    omega

/-- A request without a body. -/
def request : Client where
  asyncHttpId := 7
  urlHost := "localhost".toUTF8.toList
  method := "GET".toUTF8.toList
  path := "/".toUTF8.toList
  headers := []
  body := .bytes []

theorem start_request : (start plainHpack {} [request] request).isSome = true := by decide

/-- A session that was started with a request while another waited. -/
def started : Session plainHpack := (start plainHpack {} [request] request).get start_request

/-- SETTINGS, and the first part of a header block that is complete in two frames, and of one that
is not. -/
def greeting : Bytes :=
  [0, 0, 0, 4, 0, 0, 0, 0, 0] ++ [0, 0, 2, 1, 0, 0, 0, 0, 1, 65, 66] ++
    [0, 0, 1, 9, 4, 0, 0, 0, 1, 67] ++ [0, 0, 1, 1, 0, 0, 0, 0, 1, 68]

theorem greeting_read : (started.onData greeting {}).isSome = true := by decide +kernel

/-- The session behind the greeting. -/
def greeted : Session plainHpack := (started.onData greeting {}).get greeting_read

theorem greeted_reachable : Reachable greeted :=
  ⟨{}, [request], request, started, (Option.some_get start_request).symm,
    .single ⟨by decide +kernel, .onData greeting {} (Option.some_get greeting_read).symm⟩⟩

theorem reachable_inStep_greeted : (headerBlocks greeted.log).complete = [[65, 66, 67]] ∧
    (headerBlocks greeted.log).complete.foldlM (feed plainHpack) plainHpack.initial.1 =
        some greeted.decoder ∧
      (headerBlocks greeted.log).unfinished =
        if greeted.expectingContinuation = 0 then none else some greeted.gathered :=
  ⟨by decide +kernel, reachable_inStep greeted_reachable (by decide +kernel)⟩

theorem reachable_accounts_greeted : greeted.adoptions 7 = 2 ∧
    greeted.adoptions 7 = greeted.answers 7 + greeted.waiting 7 + greeted.carried 7 ∧
      ∀ error, (greeted.onClose error).adoptions 7 = (greeted.onClose error).answers 7 :=
  ⟨by decide +kernel, reachable_accounts greeted_reachable 7⟩

end Session

end Bunx.Http2
