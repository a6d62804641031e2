/-
Module: Bunx.Http2.HeaderFrames
Purpose: HEADERS and CONTINUATION, on streams that are there and on streams that are not, and with
  them every frame: the decoder stays in step.
Trusted boundary: none
Main exports: endHeaders_stands, dispatchFrame_follows
-/
import Bunx.Http2.HeaderSync

namespace Bunx.Http2

open Lib

variable {hp : Hpack}

theorem feed_append {blocks : List Bytes} {first decoder after : hp.Decoder} {block : Bytes}
    (fed : blocks.foldlM (feed hp) first = some decoder)
    (feeds : feed hp decoder block = some after) :
    (blocks ++ [block]).foldlM (feed hp) first = some after := by
  rw [List.foldlM_append, fed, Option.bind_eq_bind, Option.bind_some, List.foldlM_cons, feeds]
  rfl

namespace Session

/-! ### The end of a header block -/

/-- A stream that is there is written back. -/
theorem Kept.put {s : Session hp} {stream before : Stream} (kept : s.Kept)
    (found : s.streams.get stream.id = some before) : (s.putStream stream).Kept where
  distinct := OrderedMap.nodup_put kept.distinct
  named := by
    intro id other foundOther
    change (s.streams.put stream.id fun _ => stream).get id = some other at foundOther
    rw [OrderedMap.get_put] at foundOther
    by_cases isId : stream.id = id
    · subst isId
      rw [if_pos rfl] at foundOther
      cases foundOther
      exact ⟨rfl, (kept.named _ _ found).2⟩
    · rw [if_neg isId] at foundOther
      exact kept.named id other foundOther
  expecting := kept.expecting

theorem acceptBlock_quiet (s : Session hp) (stream : Stream) (scan : HeaderScan) :
    Quiet s (s.acceptBlock stream scan).1 ∧ (s.acceptBlock stream scan).2.part = stream.part := by
  unfold acceptBlock
  split
  · exact ⟨.refl s, rfl⟩
  · split
    · simp only
      split
      · split
        · exact ⟨.refl s, rfl⟩
        · exact ⟨.refl s, rfl⟩
      · split
        · exact ⟨.refl s, rfl⟩
        · exact ⟨.refl s, rfl⟩
    · simp only
      split
      · exact ⟨writeFrame_quiet s _ _ _ _, rfl⟩
      · exact ⟨.refl s, rfl⟩

/-- The end of a block changes the decoder and the stream; the connection goes on only where the
whole block went through the decoder. -/
theorem decodeHeaderBlock_feeds (s : Session hp) (stream : Stream) :
    ∃ after, Quiet ({ s with decoder := after } : Session hp) (s.decodeHeaderBlock stream).1 ∧
      (s.decodeHeaderBlock stream).2.part = ({ stream with headerBlock := [] } : Stream).part ∧
      ((s.decodeHeaderBlock stream).1.fatalError = none →
        feed hp s.decoder stream.headerBlock = some after) := by
  unfold decodeHeaderBlock
  simp only
  cases scanned : HeaderScan.run hp stream.statusCode stream.headerBlock.length
      stream.headerBlock s.decoder { decodedBytes := stream.decodedBytes } with
  | mk result after =>
      refine ⟨after, ?_⟩
      cases result with
      | error error => exact ⟨(Quiet.refl _).fail error, rfl, fun alive => by cases alive⟩
      | ok scan =>
          have feeds : feed hp s.decoder stream.headerBlock = some after := by
            rw [feed, HeaderScan.run_discard scanned]
            rfl
          refine and_assoc.mp ⟨?_, fun _ => feeds⟩
          simp only
          split
          · exact rstStream_quiet ({ s with decoder := after } : Session hp)
              { stream with headerBlock := [] } .protocolError
          · split
            · split
              · exact ⟨.refl _, rfl⟩
              · exact ⟨.refl _, rfl⟩
            · exact acceptBlock_quiet _ _ _

theorem endHeaders_stands {s : Session hp} {stream before : Stream} {blocks : HeaderBlocks}
    (stands : s.Stands blocks) (found : s.streams.get stream.id = some before)
    (alive : (s.endHeaders stream).fatalError = none)
    (between : s.expectingContinuation = 0) :
    (s.endHeaders stream).Stands (blocks.add stream.headerBlock true) ∧
      receivedFrames (s.endHeaders stream).log = receivedFrames s.log := by
  unfold endHeaders at alive ⊢
  generalize isEnded : (if stream.headersEndStream = true then stream.recvEndStream
    else stream) = ended at alive ⊢
  have samePart : ended.part = stream.part := by
    rw [← isEnded]
    split
    · rfl
    · rfl
  simp only at alive ⊢
  obtain ⟨after, quiet, sameAfter, feeds⟩ := decodeHeaderBlock_feeds s ended
  have sameBlock : ended.headerBlock = stream.headerBlock :=
    congrArg (fun part => part.2.1) samePart
  have sameId : (s.decodeHeaderBlock ended).2.id = stream.id :=
    (congrArg Prod.fst sameAfter).trans (congrArg Prod.fst samePart)
  rw [sameBlock] at feeds
  have keptNext : (s.decodeHeaderBlock ended).1.Kept :=
    quiet.kept ⟨stands.kept.distinct, stands.kept.named, stands.kept.expecting⟩
  obtain ⟨other, foundNext, -⟩ := quiet.get_some found
  rw [← sameId] at foundNext
  have isBetween : (s.decodeHeaderBlock ended).1.expectingContinuation = 0 :=
    quiet.expecting.trans between
  refine ⟨⟨keptNext.put foundNext, ?_, ?_⟩, quiet.received⟩
  · exact feed_append stands.decoder ((feeds alive).trans (congrArg some quiet.decoder.symm))
  · exact (if_pos isBetween).symm

theorem decodeDiscardOrphan_stands {s : Session hp} {blocks : HeaderBlocks}
    (stands : s.Stands blocks) (alive : s.decodeDiscardOrphan.fatalError = none)
    (between : s.expectingContinuation = 0) :
    s.decodeDiscardOrphan.Stands (blocks.add s.orphanHeaderBlock true) ∧
      receivedFrames s.decodeDiscardOrphan.log = receivedFrames s.log := by
  unfold decodeDiscardOrphan at alive ⊢
  simp only at alive ⊢
  cases discards : discardBlock hp s.orphanHeaderBlock.length s.orphanHeaderBlock s.decoder with
  | mk whole after =>
      rw [discards] at alive
      cases whole with
      | false => cases alive
      | true =>
          have feeds : feed hp s.decoder s.orphanHeaderBlock = some after := by
            rw [feed, discards]
            rfl
          refine ⟨⟨⟨stands.kept.distinct, stands.kept.named, stands.kept.expecting⟩,
            feed_append stands.decoder feeds, (if_pos between).symm⟩, rfl⟩

/-! ### HEADERS and CONTINUATION -/

/-- The peer opens no stream of its own, and none above those of the client. -/
theorem lt_of_not_idle {s : Session hp} {streamId : Nat} (known : s.isIdle streamId = false) :
    streamId < s.nextStreamId := by
  unfold isIdle at known
  simp only [Bool.or_eq_false_iff, decide_eq_false_iff_not] at known
  omega

theorem dispatchHeaders_stands {s : Session hp} {blocks : HeaderBlocks} {frame : Frame}
    (stands : s.Stands blocks) (isHeaders : FrameType.ofByte? frame.type_ = some .headers)
    (between : s.expectingContinuation = 0)
    (alive : (s.dispatchHeaders frame).fatalError = none) :
    (s.dispatchHeaders frame).Stands (blocks.frame frame) ∧
      receivedFrames (s.dispatchHeaders frame).log = receivedFrames s.log := by
  unfold dispatchHeaders at alive ⊢
  simp only [HeaderBlocks.frame, isHeaders]
  have kept := stands.kept
  cases found : s.streams.get frame.streamIdentifier with
  | none =>
      rw [found] at alive
      simp only at alive ⊢
      split at alive
      · cases alive
      · next known =>
        rw [if_neg known]
        simp only [Bool.or_eq_true, decide_eq_true_eq, not_or, Bool.not_eq_true] at known
        cases isFragment : headerFragment frame with
        | error error =>
            rw [isFragment] at alive
            cases alive
        | ok fragment =>
            rw [isFragment] at alive
            simp only at alive ⊢
            have standsNext : Stands ({ s with orphanHeaderBlock := fragment } : Session hp)
                blocks :=
              ⟨⟨kept.distinct, kept.named, kept.expecting⟩, stands.decoder, by
                rw [stands.unfinished, if_pos between, if_pos between]⟩
            cases ends : hasFlag frame.flags END_HEADERS with
            | true =>
                rw [ends] at alive
                exact decodeDiscardOrphan_stands standsNext alive between
            | false =>
                refine ⟨⟨⟨kept.distinct, kept.named, lt_of_not_idle known.2⟩, stands.decoder,
                  ?_⟩, rfl⟩
                have isGathered : ({ s with
                    orphanHeaderBlock := fragment
                    expectingContinuation := frame.streamIdentifier } : Session hp).gathered =
                    fragment := by
                  simp only [gathered, found]
                exact ((if_neg known.1).trans (congrArg some isGathered)).symm
  | some stream =>
      rw [found] at alive
      obtain ⟨isId, positive, less⟩ := kept.named _ _ found
      simp only at alive ⊢
      cases isFragment : headerFragment frame with
      | error error =>
          rw [isFragment] at alive
          cases alive
      | ok fragment =>
          rw [isFragment] at alive
          simp only at alive ⊢
          have standsNext : Stands ({ s with streamProgressed := true } : Session hp) blocks :=
            ⟨⟨kept.distinct, kept.named, kept.expecting⟩, stands.decoder, stands.unfinished⟩
          have foundNext : ({ s with streamProgressed := true } : Session hp).streams.get
              ({ stream with
                headerBlock := fragment
                headersEndStream := hasFlag frame.flags END_STREAM } : Stream).id =
              some stream := by
            rw [isId]
            exact found
          cases ends : hasFlag frame.flags END_HEADERS with
          | true =>
              rw [ends] at alive
              exact endHeaders_stands standsNext foundNext alive between
          | false =>
              have keptPut := standsNext.kept.put foundNext
              refine ⟨⟨⟨keptPut.distinct, keptPut.named, ?_⟩, stands.decoder, ?_⟩, rfl⟩
              · show stream.id < s.nextStreamId
                rw [isId]
                exact less
              · have isGathered : ({ ({ s with streamProgressed := true } : Session hp).putStream
                    { stream with
                      headerBlock := fragment
                      headersEndStream := hasFlag frame.flags END_STREAM } with
                    expectingContinuation := stream.id } : Session hp).gathered = fragment := by
                  simp only [gathered, putStream, OrderedMap.get_put, if_true]
                refine ((if_neg ?_).trans (congrArg some isGathered)).symm
                show stream.id ≠ 0
                rw [isId]
                exact positive

theorem dispatchContinuation_stands {s : Session hp} {blocks : HeaderBlocks} {frame : Frame}
    (stands : s.Stands blocks)
    (isContinuation : FrameType.ofByte? frame.type_ = some .continuation)
    (alive : (s.dispatchContinuation frame).fatalError = none) :
    (s.dispatchContinuation frame).Stands (blocks.frame frame) ∧
      receivedFrames (s.dispatchContinuation frame).log = receivedFrames s.log := by
  unfold dispatchContinuation at alive ⊢
  simp only [HeaderBlocks.frame, isContinuation]
  have kept := stands.kept
  split at alive
  · cases alive
  · next awaited =>
    rw [if_neg awaited]
    simp only [Bool.or_eq_true, decide_eq_true_eq, not_or] at awaited
    have goesOn : s.expectingContinuation ≠ 0 := awaited.1
    have unfinished : blocks.unfinished.getD [] = s.gathered := by
      rw [stands.unfinished, if_neg goesOn]
      rfl
    rw [unfinished]
    have noneAwaited : 0 < s.nextStreamId := Nat.lt_of_le_of_lt (Nat.zero_le _) kept.expecting
    cases found : s.streams.get s.expectingContinuation with
    | none =>
        have isGathered : s.gathered = s.orphanHeaderBlock := by simp only [gathered, found]
        rw [found] at alive
        simp only [isGathered] at alive ⊢
        split at alive
        · cases alive
        · next small =>
          rw [if_neg small]
          cases ends : hasFlag frame.flags END_HEADERS with
          | true =>
              rw [ends] at alive
              have standsNext : Stands ({ s with
                  orphanHeaderBlock := s.orphanHeaderBlock ++ frame.payload
                  expectingContinuation := 0 } : Session hp) { blocks with unfinished := none } :=
                ⟨⟨kept.distinct, kept.named, noneAwaited⟩, stands.decoder, rfl⟩
              have ended := decodeDiscardOrphan_stands standsNext alive rfl
              exact ended
          | false =>
              refine ⟨⟨⟨kept.distinct, kept.named, kept.expecting⟩, stands.decoder, ?_⟩, rfl⟩
              have isMore : ({ s with
                  orphanHeaderBlock := s.orphanHeaderBlock ++ frame.payload } :
                    Session hp).gathered = s.orphanHeaderBlock ++ frame.payload := by
                simp only [gathered, found]
              exact ((if_neg goesOn).trans (congrArg some isMore)).symm
    | some stream =>
        have isGathered : s.gathered = stream.headerBlock := by simp only [gathered, found]
        obtain ⟨isId, -, -⟩ := kept.named _ _ found
        rw [found] at alive
        simp only [isGathered] at alive ⊢
        split at alive
        · cases alive
        · next small =>
          rw [if_neg small]
          have foundNext : s.streams.get ({ stream with
              headerBlock := stream.headerBlock ++ frame.payload } : Stream).id = some stream := by
            rw [isId]
            exact found
          cases ends : hasFlag frame.flags END_HEADERS with
          | true =>
              rw [ends] at alive
              have standsNext : Stands ({ s with expectingContinuation := 0 } : Session hp)
                  { blocks with unfinished := none } :=
                ⟨⟨kept.distinct, kept.named, noneAwaited⟩, stands.decoder, rfl⟩
              have ended := endHeaders_stands standsNext foundNext alive rfl
              exact ended
          | false =>
              refine ⟨⟨kept.put foundNext, stands.decoder, ?_⟩, rfl⟩
              have isMore : (s.putStream { stream with
                  headerBlock := stream.headerBlock ++ frame.payload }).gathered =
                  stream.headerBlock ++ frame.payload := by
                simp only [gathered, putStream, OrderedMap.get_put, isId, if_true]
              exact ((if_neg goesOn).trans (congrArg some isMore)).symm

/-! ### All frames -/

theorem inStep_of_stands {s t : Session hp} {frame : Frame}
    (stands : t.Stands ((headerBlocks s.log).frame frame))
    (received : receivedFrames t.log = receivedFrames (s.record (.received frame)).log) :
    t.InStep := by
  have same : headerBlocks t.log = (headerBlocks s.log).frame frame := by
    rw [← headerBlocks_received, headerBlocks, received]
    rfl
  rw [InStep, same]
  exact stands

/-- Whatever frame is dispatched, the decoder is in step behind it. -/
theorem dispatchFrame_follows {s t : Session hp} {frame : Frame} (alive : s.fatalError = none)
    (inStep : s.InStep) (goes : (s.record (.received frame)).dispatchFrame frame = some t) :
    t.Follows := by
  intro aliveNow
  have stands : (s.record (.received frame)).Stands (headerBlocks s.log) :=
    ⟨⟨inStep.kept.distinct, inStep.kept.named, inStep.kept.expecting⟩, inStep.decoder,
      inStep.unfinished⟩
  -- A frame that carries no part of a block.
  have silent (same : ∀ blocks : HeaderBlocks, blocks.frame frame = blocks)
      (quiet : Quiet (s.record (.received frame)) t) : t.InStep := by
    refine inStep_of_stands ?_ quiet.received
    rw [same]
    exact quiet.aside.stands stands
  unfold dispatchFrame at goes
  simp only at goes
  split at goes
  · cases goes
    cases aliveNow
  · next between =>
    split at goes
    · cases goes
      cases aliveNow
    · cases isType : FrameType.ofByte? frame.type_ with
      | none =>
          rw [isType] at goes
          cases goes
          exact silent (fun blocks => by simp only [HeaderBlocks.frame, isType])
            (Quiet.refl _)
      | some type =>
          rw [isType] at goes between
          have carriesNone (noHeaders : type ≠ .headers) (noContinuation : type ≠ .continuation)
              (blocks : HeaderBlocks) : blocks.frame frame = blocks := by
            cases type with
            | headers => exact absurd rfl noHeaders
            | continuation => exact absurd rfl noContinuation
            | _ => simp only [HeaderBlocks.frame, isType]
          cases type with
          | settings =>
              exact silent (carriesNone (by simp) (by simp)) (dispatchSettings_quiet goes)
          | windowUpdate =>
              exact silent (carriesNone (by simp) (by simp))
                (dispatchWindowUpdate_quiet stands.kept goes)
          | ping =>
              cases goes
              exact silent (carriesNone (by simp) (by simp)) (dispatchPing_quiet _ frame)
          | priority =>
              cases goes
              exact silent (carriesNone (by simp) (by simp)) (dispatchPriority_quiet _ frame)
          | headers =>
              cases goes
              have isBetween : s.expectingContinuation = 0 := by
                by_contra goesOn
                exact between ⟨goesOn, by simp⟩
              obtain ⟨standsNow, received⟩ :=
                dispatchHeaders_stands stands isType isBetween aliveNow
              exact inStep_of_stands standsNow received
          | continuation =>
              cases goes
              obtain ⟨standsNow, received⟩ :=
                dispatchContinuation_stands stands isType aliveNow
              exact inStep_of_stands standsNow received
          | data =>
              cases goes
              exact silent (carriesNone (by simp) (by simp)) (dispatchData_quiet stands.kept frame)
          | rstStream =>
              cases goes
              exact silent (carriesNone (by simp) (by simp))
                (dispatchRstStream_quiet stands.kept frame)
          | goaway =>
              cases goes
              exact silent (carriesNone (by simp) (by simp)) (dispatchGoaway_quiet _ frame)
          | pushPromise =>
              cases goes
              cases aliveNow

end Session

end Bunx.Http2
