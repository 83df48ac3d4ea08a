import Ehdb.L0.Frame
import Ehdb.ProofKit.Memory
import Ehdb.ProofKit.OrderedMap
import Mathlib.Data.String.Basic

/-! The files of a `DurableSegmentStore`: segments of frames, the checkpoint sidecar and the reclaim
manifest. Events and the state of consumers share the frames. -/

namespace Ehdb.Reference

open ProofKit
open L0 (crc32 toLeBytes fromLeBytes slice frameMagic frameHeaderLen maxFrameBodyBytes)

inductive SegmentFrame where
  | event (globalSequence : Nat) (executionId transactionId payload : String)
  | consumerCreate (consumer : String)
  | ack (consumer : String) (sequence : Nat)
  deriving DecidableEq

/-- `serde_json` on frames, which have nothing that JSON cannot write. -/
structure FrameCodec where
  toVec : SegmentFrame → Bytes
  fromSlice : Bytes → Except String SegmentFrame
  fromSlice_toVec : ∀ frame, fromSlice (toVec frame) = .ok frame

structure EventLogRecordView where
  globalSequence : Nat
  executionId : String
  transactionId : String
  byteLen : Nat
  payload : String
  deriving DecidableEq

inductive FrameRead where
  | torn
  | badMagic
  | tooLong (bodyLen : Nat)
  | badCrc
  | frame (body : Bytes) (bodyEnd : Nat)
  deriving DecidableEq

def frameAt (bytes : Bytes) (start : Nat) : FrameRead :=
  if start + frameHeaderLen > bytes.length then .torn
  else
    let magic := fromLeBytes (slice bytes start (start + 4))
    let bodyLen := fromLeBytes (slice bytes (start + 4) (start + 8))
    let crc := fromLeBytes (slice bytes (start + 8) (start + 12))
    if magic ≠ frameMagic then .badMagic
    else if bodyLen > maxFrameBodyBytes then .tooLong bodyLen
    else
      let bodyStart := start + frameHeaderLen
      let bodyEnd := bodyStart + bodyLen
      if bodyEnd > bytes.length then .torn
      else
        let body := slice bytes bodyStart bodyEnd
        if (crc32 body).toNat ≠ crc then .badCrc
        else .frame body bodyEnd

def frameHeader (body : Bytes) : Bytes :=
  toLeBytes frameMagic ++ toLeBytes body.length ++ toLeBytes (crc32 body).toNat

/-- The checkpoint sidecar, with the set of consumers that `consumers_seen` lists. -/
structure StoreCheckpoint where
  eventCount : Nat
  activeSegmentId : Nat
  activeLen : Nat
  consumersSeen : OrderedMap String Unit
  consumerAcks : OrderedMap String Nat

structure ReclaimManifest where
  reclaimedThroughSeq : Nat
  reclaimedThroughSegment : Nat
  deriving DecidableEq

def ReclaimManifest.default : ReclaimManifest := ⟨0, 0⟩

/-- The directory of a store. The checkpoint and the manifest are written beside and renamed, so
each is there in full or not at all. -/
structure Dir where
  segments : OrderedMap Nat Bytes
  checkpoint : Option StoreCheckpoint
  reclaim : Option ReclaimManifest

namespace Dir

def empty : Dir := ⟨.empty, none, none⟩

def segmentIds (d : Dir) : List Nat := d.segments.entries.map Prod.fst

def bytes (d : Dir) (id : Nat) : Bytes := (d.segments.find? id).getD []

def manifest (d : Dir) : ReclaimManifest := d.reclaim.getD .default

/-- `open` with `create` and `append`. -/
def create (id : Nat) (d : Dir) : Dir :=
  { d with segments := d.segments.insert id (d.bytes id) }

def extend (id : Nat) (more : Bytes) (d : Dir) : Dir :=
  { d with segments := d.segments.insert id (d.bytes id ++ more) }

def truncate (id len : Nat) (d : Dir) : Dir :=
  { d with segments := d.segments.insert id ((d.bytes id).take len) }

def remove (id : Nat) (d : Dir) : Dir :=
  { d with segments := d.segments.erase id }

end Dir

/-- How a step on the file system ends. A write may come to an end after some of its bytes, in order
to go on with the rest or with an error. -/
inductive IoOutcome where
  | ok (written : Nat)
  | fail (written : Nat)
  deriving DecidableEq

/-- The error of a step on the file system, whose text is the system's. -/
def ioError : EhdbError := .storage "io error"

/-- What a store is opened with, and whether steps on the file system may fail. -/
structure StoreEnv where
  codec : FrameCodec
  trim : String → String
  segmentMaxBytes : Nat
  mayFail : Bool

structure EventLogAppendRequest where
  executionId : String
  transactionId : String
  payload : String
  deriving DecidableEq

structure EventLogAppendOutcome where
  action : String
  executionId : String
  globalSequence : Nat
  byteLen : Nat
  createdStream : Bool
  logRecordCount : Nat
  deduplicated : Bool
  deriving DecidableEq

structure EventLogScanRequest where
  after : Option Nat
  limit : Nat
  deriving DecidableEq

structure EventLogScanOutcome where
  action : String
  present : Bool
  recordCount : Nat
  returned : Nat
  records : List EventLogRecordView
  tornTailSkipped : Nat
  deriving DecidableEq

structure EventLogReadExecutionRequest where
  executionId : String
  after : Option Nat
  limit : Nat
  deriving DecidableEq

structure EventLogReadExecutionOutcome where
  action : String
  executionId : String
  present : Bool
  recordCount : Nat
  returned : Nat
  records : List EventLogRecordView
  tornTailSkipped : Nat
  deriving DecidableEq

structure EventLogTailRequest where
  consumer : String
  limit : Nat
  deriving DecidableEq

structure EventLogTailOutcome where
  action : String
  consumer : String
  present : Bool
  createdConsumer : Bool
  ackedSequence : Option Nat
  pendingCount : Nat
  returned : Nat
  records : List EventLogRecordView
  deriving DecidableEq

structure EventLogAckRequest where
  consumer : String
  sequence : Nat
  deriving DecidableEq

structure EventLogAckOutcome where
  action : String
  consumer : String
  ackedSequence : Nat
  deriving DecidableEq

structure SegmentGcPolicy where
  enabled : Bool
  minRetainedSegments : Nat
  maxRetainedSegments : Option Nat
  deriving DecidableEq

structure SegmentGcOutcome where
  enabled : Bool
  segmentsReclaimed : Nat
  eventsReclaimed : Nat
  reclaimWatermark : Nat
  reclaimedThroughSeq : Nat
  reclaimedThroughSegment : Nat
  segmentsRetained : Nat
  note : Option String
  deriving DecidableEq

/-! Every frame is synced before a call returns; opening the directory rebuilds the index from the
frames, or trusts the checkpoint and leaves the index to the first read. -/

structure EventLoc where
  segmentId : Nat
  offset : Nat
  deriving DecidableEq

structure DurableSegmentStore where
  events : List EventLoc
  byExecution : OrderedMap String (List Nat)
  consumersSeen : OrderedMap String Unit
  consumerAcks : OrderedMap String Nat
  activeSegmentId : Nat
  activeLen : Nat
  readOnly : Bool
  tornTailSkipped : Nat
  eventCount : Nat
  indexLoaded : Bool
  reclaimedThrough : Nat
  reclaimedSegment : Nat

abbrev StoreTask := Task Dir IoOutcome DurableSegmentStore EhdbError

namespace DurableSegmentStore

def initial (readOnly : Bool) : DurableSegmentStore :=
  ⟨[], .empty, .empty, .empty, 0, 0, readOnly, 0, 0, false, 0, 0⟩

/-- `consumer_acks.entry(consumer).or_insert(0)`, and up to `sequence`: a cursor never moves back.
-/
def raise (acks : OrderedMap String Nat) (consumer : String) (sequence : Nat) :
    OrderedMap String Nat :=
  let cursor := (acks.find? consumer).getD 0
  acks.insert consumer (if sequence > cursor then sequence else cursor)

/-- `by_execution.entry(execution_id).or_default().push(global_sequence)`. -/
def pushSequence (byExecution : OrderedMap String (List Nat)) (executionId : String)
    (globalSequence : Nat) : OrderedMap String (List Nat) :=
  byExecution.insert executionId ((byExecution.find? executionId).getD [] ++ [globalSequence])

variable (s : DurableSegmentStore)

def pushEvent (loc : EventLoc) (executionId : String)
    (globalSequence : Nat) : DurableSegmentStore :=
  { s with
    events := s.events ++ [loc]
    byExecution := pushSequence s.byExecution executionId globalSequence }

def applyFrame (segmentId offset : Nat) : SegmentFrame → Result DurableSegmentStore
  | .event globalSequence executionId _ _ =>
    if s.events.isEmpty then
      .ok ({ s with reclaimedThrough := globalSequence - 1 }.pushEvent ⟨segmentId, offset⟩
        executionId globalSequence)
    else
      let expected := s.reclaimedThrough + s.events.length + 1
      if globalSequence ≠ expected then
        .error (.storage
          s!"durable event-log: replay sequence gap, expected {expected} got {globalSequence}")
      else
        .ok (s.pushEvent ⟨segmentId, offset⟩ executionId globalSequence)
  | .consumerCreate consumer =>
    .ok { s with consumersSeen := s.consumersSeen.insert consumer () }
  | .ack consumer sequence =>
    .ok { s with
      consumersSeen := s.consumersSeen.insert consumer ()
      consumerAcks := raise s.consumerAcks consumer sequence }

/-- The loop of `replay_segment`, which gives the length of the intact part. A frame is at least a
header long, so `fuel` beyond the length of the segment is never used up. -/
def replayFrames (codec : FrameCodec) (segmentId : Nat) (bytes : Bytes) :
    Nat → Nat → DurableSegmentStore → Result Nat × DurableSegmentStore
  | 0, offset, s => (.ok offset, s)
  | fuel + 1, offset, s =>
    match frameAt bytes offset with
    | .torn => (.ok offset, s)
    | .badMagic =>
      (.error (.storage
        s!"durable event-log segment {segmentId}: bad frame magic at offset {offset}"), s)
    | .tooLong bodyLen =>
      (.error (.storage (s!"durable event-log segment {segmentId}: frame body {bodyLen} exceeds " ++
        s!"cap at offset {offset}")), s)
    | .badCrc =>
      (.error (.storage
        s!"durable event-log segment {segmentId}: frame CRC mismatch at offset {offset}"), s)
    | .frame body bodyEnd =>
      match codec.fromSlice body with
      | .error err =>
        (.error (.storage
          s!"durable event-log segment {segmentId}: decode frame at offset {offset}: {err}"), s)
      | .ok frame =>
        match s.applyFrame segmentId offset frame with
        | .error e => (.error e, s)
        | .ok s => replayFrames codec segmentId bytes fuel bodyEnd s

def replaySegment (codec : FrameCodec) (segmentId : Nat) (bytes : Bytes)
    (s : DurableSegmentStore) : Result Nat × DurableSegmentStore :=
  replayFrames codec segmentId bytes (bytes.length + 1) 0 s

def checkpoint : StoreCheckpoint :=
  ⟨s.eventCount, s.activeSegmentId, s.activeLen, s.consumersSeen, s.consumerAcks⟩

def checkpointConsistent (d : Dir) (c : StoreCheckpoint) : Bool :=
  let ids := d.segmentIds
  if c.eventCount = 0 then
    ids.isEmpty && c.activeSegmentId = 0 && c.activeLen = 0
  else
    match ids.getLast? with
    | some highest => highest = c.activeSegmentId && (d.bytes highest).length = c.activeLen
    | none => false

def applyCheckpoint (c : StoreCheckpoint) : DurableSegmentStore :=
  { s with
    eventCount := c.eventCount
    activeSegmentId := c.activeSegmentId
    activeLen := c.activeLen
    consumersSeen := c.consumersSeen
    consumerAcks := c.consumerAcks
    events := []
    byExecution := .empty }

section Files

variable (E : StoreEnv)

def readDir : StoreTask Dir := Task.file fun _ d => some (.ok d, d)

def diskStep (effect : Dir → Dir) : StoreTask Unit :=
  Task.file fun o d =>
    match o with
    | .ok _ => some (.ok (), effect d)
    | .fail _ => if E.mayFail then some (.error ioError, d) else none

/-- A first `write` of `write_all`, which answers with the bytes that are left. -/
def writeSome (id : Nat) (bytes : Bytes) : StoreTask Bytes :=
  Task.file fun o d =>
    match o with
    | .ok n => some (.ok (bytes.drop n), d.extend id (bytes.take n))
    | .fail n => if E.mayFail then some (.error ioError, d.extend id (bytes.take n)) else none

def writeRest (id : Nat) (bytes : Bytes) : StoreTask Unit :=
  Task.file fun o d =>
    match o with
    | .ok _ => some (.ok (), d.extend id bytes)
    | .fail n => if E.mayFail then some (.error ioError, d.extend id (bytes.take n)) else none

def writeAll (id : Nat) (bytes : Bytes) : StoreTask Unit := do
  let rest ← writeSome E id bytes
  writeRest E id rest

def persistCheckpoint : StoreTask Unit := do
  let s ← Task.memory
  if s.readOnly then pure ()
  else
    diskStep E id
    diskStep E fun d => { d with checkpoint := some s.checkpoint }

def persistReclaimManifest (manifest : ReclaimManifest) : StoreTask Unit := do
  diskStep E id
  diskStep E fun d => { d with reclaim := some manifest }

def removeFile (id : Nat) : StoreTask Unit := diskStep E (Dir.remove id)

/-- Remove the segments up to `segment`, one by one. -/
def removeThrough (segment : Nat) : StoreTask Unit := do
  let d ← readDir
  Task.each (fun id => if id ≤ segment then removeFile E id else pure ()) d.segmentIds

def reclaimLeftoverSegments : StoreTask Unit := do
  let s ← Task.memory
  if s.readOnly || s.reclaimedSegment = 0 then pure () else removeThrough E s.reclaimedSegment

/-- What `replay` clears first. -/
def cleared : DurableSegmentStore :=
  { s with
    events := []
    byExecution := .empty
    consumersSeen := .empty
    consumerAcks := .empty
    activeSegmentId := 0
    activeLen := 0
    reclaimedThrough := 0
    tornTailSkipped := 0 }

def truncateSegment (id len : Nat) : StoreTask Unit := do
  diskStep E (Dir.truncate id len)
  diskStep E fun d => d

/-- A torn tail is counted, and cut off unless the store is read-only. -/
def dropTornTail (id goodLen len : Nat) : StoreTask Unit :=
  if goodLen < len then do
    Task.update fun s => { s with tornTailSkipped := s.tornTailSkipped + 1 }
    let s ← Task.memory
    if s.readOnly then pure () else truncateSegment E id goodLen
  else pure ()

/-- What `replay` does with a segment that is not reclaimed. -/
def replayLive (id : Nat) : StoreTask Unit := do
  let d ← readDir
  let bytes := d.bytes id
  let goodLen ← Task.compute (replaySegment E.codec id bytes)
  dropTornTail E id goodLen bytes.length
  Task.update fun s => { s with activeSegmentId := id, activeLen := goodLen }

/-- What `replay` does with a segment at or below the manifest's. -/
def replayReclaimed (id : Nat) : StoreTask Unit := do
  let s ← Task.memory
  if s.readOnly then pure () else removeFile E id

/-- The end of `replay`: the manifest's sequence is the floor of the base. -/
def settleBase (manifest : ReclaimManifest) (s : DurableSegmentStore) : DurableSegmentStore :=
  let base :=
    if manifest.reclaimedThroughSeq > s.reclaimedThrough then manifest.reclaimedThroughSeq
    else s.reclaimedThrough
  { s with reclaimedThrough := base, eventCount := base + s.events.length }

def replay : StoreTask Unit := do
  Task.update cleared
  let d ← readDir
  let manifest := d.manifest
  Task.update fun s => { s with reclaimedSegment := manifest.reclaimedThroughSegment }
  Task.each (fun id =>
    if id ≤ manifest.reclaimedThroughSegment then replayReclaimed E id else replayLive E id)
    d.segmentIds
  Task.update (settleBase manifest)

def markLoaded (loaded : Bool) (s : DurableSegmentStore) : DurableSegmentStore :=
  { s with indexLoaded := loaded }

def ensureIndexLoaded : StoreTask Unit := do
  let s ← Task.memory
  if s.indexLoaded then pure ()
  else
    replay E
    Task.update (markLoaded true)

/-- The fast path of `open_inner`. -/
def openTrusting (c : StoreCheckpoint) : StoreTask Unit := do
  Task.update (applyCheckpoint · c)
  let d ← readDir
  Task.update fun s => { s with
    reclaimedThrough := d.manifest.reclaimedThroughSeq
    reclaimedSegment := d.manifest.reclaimedThroughSegment }
  reclaimLeftoverSegments E
  Task.update (markLoaded false)

/-- The slow path of `open_inner`. -/
def openReplaying : StoreTask Unit := do
  replay E
  Task.update (markLoaded true)
  persistCheckpoint E

def openInner (readOnly : Bool) : StoreTask Unit :=
  if E.segmentMaxBytes = 0 then
    Task.fail (.invalidState "durable event-log segment_max_bytes must be > 0")
  else if readOnly then do
    replay E
    Task.update (markLoaded true)
  else do
    diskStep E fun d => d
    let d ← readDir
    match d.checkpoint with
    | some c => if checkpointConsistent d c then openTrusting E c else openReplaying E
    | none => openReplaying E

def rollOver (frameLen : Nat) (s : DurableSegmentStore) : DurableSegmentStore :=
  if s.activeSegmentId = 0 then
    { s with activeSegmentId := s.reclaimedSegment + 1, activeLen := 0 }
  else if 0 < s.activeLen ∧ s.activeLen + frameLen > E.segmentMaxBytes then
    { s with activeSegmentId := s.activeSegmentId + 1, activeLen := 0 }
  else s

def readOnlyWrite : EhdbError :=
  .invalidState "durable event-log: read-only cold-load view cannot write (not the shard owner)"

/-- The part of `write_frame` that touches the file system: open, write the header and the body,
sync. -/
def appendFrame (id : Nat) (body : Bytes) : StoreTask Unit := do
  diskStep E (Dir.create id)
  writeAll E id (frameHeader body)
  writeAll E id body
  diskStep E fun d => d

def bodyOverCap (len : Nat) : EhdbError :=
  .invalidState s!"durable event-log frame body {len} exceeds cap {maxFrameBodyBytes}"

def writeFrame (frame : SegmentFrame) : StoreTask EventLoc := do
  let s ← Task.memory
  let body := E.codec.toVec frame
  let frameLen := frameHeaderLen + body.length
  if s.readOnly then Task.fail readOnlyWrite
  else if body.length > maxFrameBodyBytes then
    Task.fail (bodyOverCap body.length)
  else
    let s := rollOver E frameLen s
    Task.update fun _ => s
    appendFrame E s.activeSegmentId body
    Task.update fun s => { s with activeLen := s.activeLen + frameLen }
    return ⟨s.activeSegmentId, s.activeLen⟩

end Files

end DurableSegmentStore

end Ehdb.Reference
