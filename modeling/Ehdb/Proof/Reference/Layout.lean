import Ehdb.Reference.Reclaim

/-! A layout gives the segments of a directory as lists of frames. Replaying the bytes of a segment
adds its frames to the index of a store, unless the sequences of the events have a gap. -/

namespace Ehdb.Proof.Reference

open Ehdb.Reference DurableSegmentStore ProofKit List
open L0 (Torn torn_nil frameHeaderLen)

section

open L0

theorem frameBytes_eq (body : Bytes) : frameBytes body = frameHeader body ++ body := rfl

theorem frameHeader_length (body : Bytes) : (frameHeader body).length = frameHeaderLen := rfl

theorem frameAt_of_readFrameAt {bytes offset found}
    (h : readFrameAt bytes offset = .ok found) : frameAt bytes offset = match found with
      | none => .torn
      | some f => .frame f.body (offset + f.frameLen) := by
  unfold readFrameAt at h
  unfold frameAt
  dsimp only at h ⊢
  split at h
  · rename_i short
    cases h
    rw [if_pos short]
  rename_i room
  rw [if_neg room]
  split at h
  · cases h
  rename_i magic
  rw [if_neg magic]
  split at h
  · cases h
  rename_i small
  rw [if_neg small]
  split at h
  · rename_i short
    cases h
    rw [if_pos short]
  rename_i whole
  rw [if_neg whole]
  split at h
  · cases h
  rename_i crc
  cases h
  rw [if_neg crc]
  simp only [Nat.add_assoc]

section

variable (codec : FrameCodec) (frame : SegmentFrame)

def encodedFrame : Bytes := frameBytes (codec.toVec frame)

def encoded (frames : List SegmentFrame) : Bytes := frames.flatMap (encodedFrame codec)

def Fits : Prop := (codec.toVec frame).length ≤ maxFrameBodyBytes

variable {codec}

theorem encodedFrame_length :
    (encodedFrame codec frame).length = frameHeaderLen + (codec.toVec frame).length :=
  frameBytes_length _

theorem encodedFrame_pos : 0 < (encodedFrame codec frame).length := by
  rw [encodedFrame_length, frameHeaderLen]
  omega

@[simp]
theorem encoded_nil : encoded codec [] = [] := rfl

@[simp]
theorem encoded_cons (rest : List SegmentFrame) :
    encoded codec (frame :: rest) = encodedFrame codec frame ++ encoded codec rest := rfl

@[simp]
theorem encoded_append (front back : List SegmentFrame) :
    encoded codec (front ++ back) = encoded codec front ++ encoded codec back := flatMap_append

theorem length_le_encoded (frames : List SegmentFrame) :
    frames.length ≤ (encoded codec frames).length := by
  induction frames with
  | nil => exact Nat.le_refl _
  | cons frame rest ih =>
    have positive : 0 < (encodedFrame codec frame).length := encodedFrame_pos frame
    simp only [encoded_cons, length_append, length_cons]
    omega

end

theorem loadFrame_encoded {E frame} (fits : Fits E.codec frame)
    (sequence : Nat) (before after : Bytes) :
    DurableSegmentStore.loadFrame E sequence (before ++ encodedFrame E.codec frame ++ after)
      before.length = .ok frame := by
  have lenWord : fromLeBytes (toLeBytes (E.codec.toVec frame).length) =
      (E.codec.toVec frame).length :=
    fromLeBytes_toLeBytes (by unfold Fits maxFrameBodyBytes at fits; omega)
  have crcWord : fromLeBytes (toLeBytes (crc32 (E.codec.toVec frame)).toNat) =
      (crc32 (E.codec.toVec frame)).toNat := fromLeBytes_toLeBytes (crc32 _).toNat_lt
  have magicWord : fromLeBytes (toLeBytes frameMagic) = frameMagic :=
    fromLeBytes_toLeBytes (by decide)
  have header : slice (before ++ encodedFrame E.codec frame ++ after) before.length
      (before.length + frameHeaderLen) = frameHeader (E.codec.toVec frame) :=
    slice_within before (E.codec.toVec frame ++ after) (by simp [encodedFrame, frameBytes_eq]) rfl
      (by rw [frameHeader_length])
  have body : slice (before ++ encodedFrame E.codec frame ++ after)
      (before.length + frameHeaderLen)
      (before.length + frameHeaderLen + (E.codec.toVec frame).length) = E.codec.toVec frame :=
    slice_within (before ++ frameHeader (E.codec.toVec frame)) after
      (by simp [encodedFrame, frameBytes_eq]) (by simp [frameHeader_length])
      (by simp [frameHeader_length])
  have magic : slice (frameHeader (E.codec.toVec frame)) 0 4 = toLeBytes frameMagic := rfl
  have bodyLen : slice (frameHeader (E.codec.toVec frame)) 4 8 =
      toLeBytes (E.codec.toVec frame).length := rfl
  have crc : slice (frameHeader (E.codec.toVec frame)) 8 12 =
      toLeBytes (crc32 (E.codec.toVec frame)).toNat := rfl
  have room : before.length + frameHeaderLen + (E.codec.toVec frame).length ≤
      (before ++ encodedFrame E.codec frame ++ after).length := by
    simp only [length_append, encodedFrame_length]
    omega
  unfold DurableSegmentStore.loadFrame DurableSegmentStore.readExact
  rw [if_pos (by omega)]
  simp only [header, magic, bodyLen, crc, magicWord, lenWord, crcWord, bind, Except.bind]
  rw [if_neg (by simp), if_pos room]
  simp only [body, ne_eq, not_true, if_false, E.codec.fromSlice_toVec]

end

structure Segment where
  id : Nat
  frames : List SegmentFrame
  torn : Bytes

abbrev Layout := List Segment

def Segment.file (codec : FrameCodec) (seg : Segment) : Nat × Bytes :=
  (seg.id, encoded codec seg.frames ++ seg.torn)

def framesIn (L : Layout) : List SegmentFrame := L.flatMap Segment.frames

@[simp]
theorem framesIn_nil : framesIn [] = [] := rfl

@[simp]
theorem framesIn_cons (seg : Segment) (L : Layout) :
    framesIn (seg :: L) = seg.frames ++ framesIn L :=
  rfl

@[simp]
theorem framesIn_append (A B : Layout) : framesIn (A ++ B) = framesIn A ++ framesIn B :=
  flatMap_append

/-- The directory has the segments of the layout, with frames that can be read back. -/
structure Lays (codec : FrameCodec) (d : Dir) (L : Layout) : Prop where
  entries : d.segments.entries = L.map (Segment.file codec)
  fits : ∀ seg ∈ L, ∀ frame ∈ seg.frames, Fits codec frame
  torn : ∀ seg ∈ L, Torn seg.torn

def viewOf : SegmentFrame → Option EventLogRecordView
  | .event sequence executionId transactionId payload =>
    some (recordView sequence executionId transactionId payload)
  | _ => none

def viewsOf (frames : List SegmentFrame) : List EventLogRecordView := frames.filterMap viewOf

@[simp]
theorem viewsOf_nil : viewsOf [] = [] := rfl

@[simp]
theorem viewsOf_append (front back : List SegmentFrame) :
    viewsOf (front ++ back) = viewsOf front ++ viewsOf back := filterMap_append

def seenBy (seen : OrderedMap String Unit) : SegmentFrame → OrderedMap String Unit
  | .event .. => seen
  | .consumerCreate consumer => seen.insert consumer ()
  | .ack consumer _ => seen.insert consumer ()

def seenOf (frames : List SegmentFrame) : OrderedMap String Unit := frames.foldl seenBy .empty

def ackedBy (acks : OrderedMap String Nat) : SegmentFrame → OrderedMap String Nat
  | .ack consumer sequence => raise acks consumer sequence
  | _ => acks

def acksOf (frames : List SegmentFrame) : OrderedMap String Nat := frames.foldl ackedBy .empty

def executedBy (byExecution : OrderedMap String (List Nat)) :
    SegmentFrame → OrderedMap String (List Nat)
  | .event sequence executionId _ _ => pushSequence byExecution executionId sequence
  | _ => byExecution

def executionsOf (frames : List SegmentFrame) : OrderedMap String (List Nat) :=
  frames.foldl executedBy .empty

def baseOf (views : List EventLogRecordView) : Nat :=
  (views.head?.map fun view => view.globalSequence - 1).getD 0

def Gapless (views : List EventLogRecordView) : Prop :=
  views.tail.map EventLogRecordView.globalSequence =
    List.range' (baseOf views + 2) views.tail.length

instance (views : List EventLogRecordView) : Decidable (Gapless views) :=
  inferInstanceAs (Decidable (_ = _))

theorem gapless_nil : Gapless [] := rfl

theorem gapless_append_singleton {views view} : Gapless (views ++ [view]) ↔ Gapless views ∧
      (views = [] ∨ view.globalSequence = baseOf views + views.length + 1) := by
  cases views with
  | nil => simp [Gapless]
  | cons first rest =>
    have base : baseOf (first :: (rest ++ [view])) = baseOf (first :: rest) := rfl
    have tail : Gapless (first :: (rest ++ [view])) ↔
        rest.map EventLogRecordView.globalSequence ++ [view.globalSequence] =
          range' (baseOf (first :: rest) + 2) rest.length ++
            [baseOf (first :: rest) + (rest.length + 1) + 1] := by
      rw [Gapless, base, tail_cons, map_append, length_append, length_singleton, range'_concat,
        show baseOf (first :: rest) + 2 + 1 * rest.length =
          baseOf (first :: rest) + (rest.length + 1) + 1 by omega]
      rfl
    rw [cons_append, tail]
    constructor
    · intro h
      obtain ⟨front, last⟩ := append_inj' h rfl
      exact ⟨front, .inr (singleton_inj.1 last)⟩
    · rintro ⟨front, fresh | last⟩
      · cases fresh
      · rw [show rest.map _ = _ from front, last]
        rfl

theorem Gapless.of_append {front back} (h : Gapless (front ++ back)) : Gapless front := by
  induction back using reverseRecOn with
  | nil => simpa using h
  | append_singleton back view ih =>
    rw [← append_assoc] at h
    exact ih (gapless_append_singleton.1 h).1

section

variable (codec : FrameCodec)

def placedFrom (id : Nat) : Nat → List SegmentFrame → List (EventLoc × SegmentFrame)
  | _, [] => []
  | offset, frame :: rest =>
    (⟨id, offset⟩, frame) :: placedFrom id (offset + (encodedFrame codec frame).length) rest

def placed (L : Layout) : List (EventLoc × SegmentFrame) :=
  L.flatMap fun seg => placedFrom codec seg.id 0 seg.frames

variable {codec}

@[simp]
theorem placedFrom_frames (id offset : Nat) (frames : List SegmentFrame) :
    (placedFrom codec id offset frames).map Prod.snd = frames := by
  induction frames generalizing offset with
  | nil => rfl
  | cons frame rest ih => simp [placedFrom, ih]

theorem placedFrom_append (id offset : Nat) (front back : List SegmentFrame) :
    placedFrom codec id offset (front ++ back) = placedFrom codec id offset front ++
      placedFrom codec id (offset + (encoded codec front).length) back := by
  induction front generalizing offset with
  | nil => rfl
  | cons frame rest ih => simp [placedFrom, ih, Nat.add_assoc]

@[simp]
theorem placed_append (A B : Layout) : placed codec (A ++ B) = placed codec A ++ placed codec B :=
  flatMap_append

@[simp]
theorem placed_frames (L : Layout) : (placed codec L).map Prod.snd = framesIn L := by
  induction L with
  | nil => rfl
  | cons seg L ih =>
    rw [placed, flatMap_cons, map_append, placedFrom_frames, framesIn_cons, ← ih, placed]

end

def locsOf (P : List (EventLoc × SegmentFrame)) : List EventLoc :=
  P.filterMap fun e => (viewOf e.2).map fun _ => e.1

@[simp]
theorem locsOf_append (P Q : List (EventLoc × SegmentFrame)) :
    locsOf (P ++ Q) = locsOf P ++ locsOf Q :=
  filterMap_append

theorem locsOf_length (P : List (EventLoc × SegmentFrame)) :
    (locsOf P).length = (viewsOf (P.map Prod.snd)).length := by
  induction P with
  | nil => rfl
  | cons e P ih =>
    unfold locsOf viewsOf at ih ⊢
    rw [map_cons, filterMap_cons, filterMap_cons]
    cases viewOf e.2 with
    | none => exact ih
    | some view => simp [ih]

def withIndex (s : DurableSegmentStore) (P : List (EventLoc × SegmentFrame)) :
    DurableSegmentStore :=
  { s with
    events := locsOf P
    byExecution := executionsOf (P.map Prod.snd)
    consumersSeen := seenOf (P.map Prod.snd)
    consumerAcks := acksOf (P.map Prod.snd)
    reclaimedThrough := baseOf (viewsOf (P.map Prod.snd)) }

theorem baseOf_append {front back} (h : front ≠ []) : baseOf (front ++ back) = baseOf front := by
  cases front with
  | nil => exact absurd rfl h
  | cons view rest => rfl

theorem executionsOf_append_singleton (frames : List SegmentFrame) (frame : SegmentFrame) :
    executionsOf (frames ++ [frame]) = executedBy (executionsOf frames) frame := by
  simp [executionsOf]

theorem seenOf_append_singleton (frames : List SegmentFrame) (frame : SegmentFrame) :
    seenOf (frames ++ [frame]) = seenBy (seenOf frames) frame := by
  simp [seenOf]

theorem acksOf_append_singleton (frames : List SegmentFrame) (frame : SegmentFrame) :
    acksOf (frames ++ [frame]) = ackedBy (acksOf frames) frame := by
  simp [acksOf]

section

variable {s : DurableSegmentStore} {P : List (EventLoc × SegmentFrame)} {id offset : Nat}
  {frame : SegmentFrame}

theorem isEmpty_withIndex :
    (withIndex s P).events.isEmpty = true ↔ viewsOf (P.map Prod.snd) = [] := by
  rw [isEmpty_iff_length_eq_zero, ← length_eq_zero_iff, ← locsOf_length]
  rfl

theorem withIndex_append_singleton (e : EventLoc × SegmentFrame) :
    withIndex s (P ++ [e]) = { withIndex s P with
      events := locsOf P ++ ((viewOf e.2).map fun _ => e.1).toList
      byExecution := executedBy (executionsOf (P.map Prod.snd)) e.2
      consumersSeen := seenBy (seenOf (P.map Prod.snd)) e.2
      consumerAcks := ackedBy (acksOf (P.map Prod.snd)) e.2
      reclaimedThrough := baseOf (viewsOf (P.map Prod.snd) ++ (viewOf e.2).toList) } := by
  have views : viewsOf [e.2] = (viewOf e.2).toList := by
    cases h : viewOf e.2 <;> simp [viewsOf, h]
  have locs : locsOf [e] = ((viewOf e.2).map fun _ => e.1).toList := by
    cases h : viewOf e.2 <;> simp [locsOf, h]
  simp only [withIndex, locsOf_append, locs, map_append, map_singleton, viewsOf_append,
    views, executionsOf_append_singleton, seenOf_append_singleton, acksOf_append_singleton]

theorem viewsOf_append_event (frames : List SegmentFrame) (sequence : Nat)
    (executionId txId payload : String) :
    viewsOf (frames ++ [.event sequence executionId txId payload]) =
      viewsOf frames ++ [recordView sequence executionId txId payload] := viewsOf_append _ _

theorem applyFrame_withIndex (gapless : Gapless (viewsOf (P.map Prod.snd ++ [frame]))) :
    (withIndex s P).applyFrame id offset frame =
      .ok (withIndex s (P ++ [(⟨id, offset⟩, frame)])) := by
  rw [withIndex_append_singleton]
  cases frame with
  | consumerCreate consumer => simp [applyFrame, withIndex, viewOf, executedBy, seenBy, ackedBy]
  | ack consumer sequence => simp [applyFrame, withIndex, viewOf, executedBy, seenBy, ackedBy]
  | event sequence executionId txId payload =>
    rw [viewsOf_append_event] at gapless
    by_cases fresh : viewsOf (P.map Prod.snd) = []
    · rw [applyFrame, if_pos (isEmpty_withIndex.2 fresh), fresh]
      rfl
    · have next := (gapless_append_singleton.1 gapless).2.resolve_left fresh
      have expected : sequence =
          (withIndex s P).reclaimedThrough + (withIndex s P).events.length + 1 := by
        rw [show (withIndex s P).events = locsOf P from rfl, locsOf_length]
        exact next
      rw [applyFrame, if_neg (mt isEmpty_withIndex.1 fresh)]
      rw [if_neg (not_not.2 expected), baseOf_append fresh]
      rfl

variable {codec : FrameCodec} {frames : List SegmentFrame} {torn before : Bytes} {fuel : Nat}

theorem replayFrames_cons {rest} (fits : ∀ f ∈ frame :: rest, Fits codec f)
    (enough : (frame :: rest).length < fuel) : ∃ n, rest.length < n ∧ replayFrames codec id
      (before ++ encoded codec (frame :: rest) ++ torn) fuel before.length s =
        match s.applyFrame id before.length frame with
        | .error e => (.error e, s)
        | .ok s' => replayFrames codec id
            (before ++ encodedFrame codec frame ++ encoded codec rest ++
          torn) n (before ++ encodedFrame codec frame).length s' := by
  obtain ⟨n, rfl⟩ : ∃ n, fuel = n + 1 := ⟨fuel - 1, by simp at enough; omega⟩
  have split : before ++ encoded codec (frame :: rest) ++ torn =
      before ++ encodedFrame codec frame ++ (encoded codec rest ++ torn) := by simp
  refine ⟨n, Nat.lt_of_succ_lt_succ enough, ?_⟩
  have first : frameAt (before ++ encodedFrame codec frame ++ (encoded codec rest ++ torn)) _ = _ :=
    frameAt_of_readFrameAt (L0.readFrameAt_frameBytes (fits frame mem_cons_self) before _)
  rw [split, replayFrames, first]
  cases done : s.applyFrame id before.length frame <;>
    simp [done, codec.fromSlice_toVec, encodedFrame_length]

section

variable (fits : ∀ frame ∈ frames, Fits codec frame)

include fits

theorem replayFrames_frames (cut : Torn torn)
    (enough : frames.length < fuel) (gapless : Gapless (viewsOf (P.map Prod.snd ++ frames))) :
    replayFrames codec id (before ++ encoded codec frames ++ torn) fuel before.length
        (withIndex s P) = (.ok (before.length + (encoded codec frames).length),
        withIndex s (P ++ placedFrom codec id before.length frames)) := by
  induction frames generalizing before fuel P with
  | nil =>
    obtain ⟨fuel, rfl⟩ : ∃ n, fuel = n + 1 := ⟨fuel - 1, by simp at enough; omega⟩
    simp [replayFrames, frameAt_of_readFrameAt (L0.readFrameAt_torn cut _), placedFrom]
  | cons frame rest ih =>
    obtain ⟨n, enough, step⟩ := replayFrames_cons fits enough
    have here : Gapless (viewsOf (P.map Prod.snd ++ [frame])) := by
      rw [← singleton_append, ← append_assoc, viewsOf_append] at gapless
      exact gapless.of_append
    have next := @ih (P ++ [(⟨id, before.length⟩, frame)]) (before ++ encodedFrame codec frame) n
      (fun f mem => fits f (.tail _ mem)) enough (by simpa using gapless)
    rw [step, applyFrame_withIndex here]
    refine next.trans ?_
    simp [placedFrom, encodedFrame_length, Nat.add_assoc]

theorem replayFrames_gap
    (enough : frames.length < fuel) (start : Gapless (viewsOf (P.map Prod.snd)))
    (gap : ¬Gapless (viewsOf (P.map Prod.snd ++ frames))) :
    ∃ e s', replayFrames codec id (before ++ encoded codec frames ++ torn) fuel before.length
      (withIndex s P) = (.error e, s') := by
  induction frames generalizing before fuel P with
  | nil => exact absurd (by simpa using start) gap
  | cons frame rest ih =>
    obtain ⟨n, enough, step⟩ := replayFrames_cons fits enough
    rw [step]
    by_cases here : Gapless (viewsOf (P.map Prod.snd ++ [frame]))
    · rw [applyFrame_withIndex here]
      exact @ih (P ++ [(⟨id, before.length⟩, frame)]) (before ++ encodedFrame codec frame) n
        (fun f mem => fits f (.tail _ mem)) enough (by simpa using here)
        (by simpa using gap)
    · obtain ⟨e, failed⟩ : ∃ e, (withIndex s P).applyFrame id before.length frame = .error e := by
        cases frame with
        | consumerCreate consumer =>
          rw [viewsOf_append, show viewsOf [.consumerCreate consumer] = [] from rfl,
            append_nil] at here
          exact absurd start here
        | ack consumer sequence =>
          rw [viewsOf_append, show viewsOf [.ack consumer sequence] = [] from rfl,
            append_nil] at here
          exact absurd start here
        | event sequence executionId txId payload =>
          rw [viewsOf_append_event, gapless_append_singleton, not_and_or, not_or] at here
          obtain ⟨not_fresh, not_next⟩ := here.resolve_left (not_not.2 start)
          have unexpected : sequence ≠
              (withIndex s P).reclaimedThrough + (withIndex s P).events.length + 1 := by
            rw [show (withIndex s P).events = locsOf P from rfl, locsOf_length]
            exact not_next
          rw [applyFrame, if_neg (mt isEmpty_withIndex.1 not_fresh)]
          rw [if_pos unexpected]
          exact ⟨_, rfl⟩
      exact ⟨e, _, by rw [failed]⟩

theorem replaySegment_frames (cut : Torn torn)
    (gapless : Gapless (viewsOf (P.map Prod.snd ++ frames))) :
    replaySegment codec id (encoded codec frames ++ torn) (withIndex s P) =
      (.ok (encoded codec frames).length, withIndex s (P ++ placedFrom codec id 0 frames)) := by
  have enough : frames.length < (encoded codec frames ++ torn).length + 1 := by
    have : frames.length ≤ (encoded codec frames).length := length_le_encoded frames
    rw [length_append]
    omega
  have replays : replayFrames codec id ([] ++ encoded codec frames ++ torn)
      ((encoded codec frames ++ torn).length + 1) ([] : Bytes).length (withIndex s P) = _ :=
    replayFrames_frames fits cut enough gapless
  simpa [replaySegment] using replays

end

theorem replaySegment_gap (id : Nat) (torn : Bytes) (fits : ∀ frame ∈ frames, Fits codec frame)
    (start : Gapless (viewsOf (P.map Prod.snd)))
    (gap : ¬Gapless (viewsOf (P.map Prod.snd ++ frames))) :
    ∃ e s', replaySegment codec id (encoded codec frames ++ torn) (withIndex s P) =
      (.error e, s') := by
  have enough : frames.length < (encoded codec frames ++ torn).length + 1 := by
    have : frames.length ≤ (encoded codec frames).length := length_le_encoded frames
    rw [length_append]
    omega
  have replays : ∃ e s', replayFrames codec id ([] ++ encoded codec frames ++ torn)
      ((encoded codec frames ++ torn).length + 1) ([] : Bytes).length (withIndex s P) =
        (.error e, s') := replayFrames_gap fits enough start gap
  simpa [replaySegment] using replays

end

end Ehdb.Proof.Reference
